import Snapchain.Spec.Node
import Snapchain.Proof.Tables

/-!
# A shard's task: `decide` split at its await

In the node, a shard proposer's `decide` sends its chunk and awaits the send; only then
does it append the chunk, commit it and evict the proposal, and the actor takes no other
call in between. A shard task holds that pending rest (`resuming`), and `resume` runs it.
Its settled view, `t.resume G`, is the proposer once the pending rest has run, with what
the rest outputs: it is the abstraction from the task to the proposer.

* `run_refines_proposer`: every run of a task with no decision in progress is a run of
  the proposer's own calls, once the decision in progress at its end, if any, has
  resumed: the same proposer, the same outputs in the same order.
* `OK.step`: a task whose table is well formed and whose chunks all have a header and a
  height, given a call it can answer, does not panic, stays so, and sends only chunks
  the block proposer can file.
-/

namespace Snapchain

/-- A chunk the block proposer can file: it has a header, and the header a height. -/
def Fileable (c : ShardChunk) : Prop :=
  ∃ header height, c.header = some header ∧ header.height = some height

/-! ## What the proposer's calls unwrap -/

namespace ShardProposer

variable {ε : Type} {H : Hasher} {G : ShardEngine ε} {s s' : ShardProposer ε}

/-- Every chunk in the proposal table has a header and a height. -/
def ChunksFileable (s : ShardProposer ε) : Prop :=
  ∀ k p c, s.proposedChunks.get k = some p → p.shardChunk = some c → Fileable c

theorem ChunksFileable.insert (hs : ChunksFileable s) {k : ShardHash} {p : FullProposal}
    (hp : ∀ c, p.shardChunk = some c → Fileable c) :
    ChunksFileable { s with proposedChunks := s.proposedChunks.insert k p } := by
  intro k' p' c h hc
  simp only [BTreeMap.get_insert] at h
  split_ifs at h
  · cases h; exact hp c hc
  · exact hs k' p' c h hc

theorem mem_publishNewShardChunk {c c' : ShardChunk} (h : c ∈ s.publishNewShardChunk c') :
    c = c' := by
  unfold publishNewShardChunk at h
  split_ifs at h <;> simp_all

/-- `add_proposed_value` of a proposal with a height, whose chunk, if it carries one, has
a header and a height, does not panic. -/
theorem addProposedValue_ok_of {fp : FullProposal} (hh : fp.height.isSome)
    (hc : ∀ c, fp.proposedValue = some (.shard c) → Fileable c) :
    ∃ r, s.addProposedValue G fp = .ok r := by
  unfold addProposedValue
  split
  · rename_i c hv
    obtain ⟨height, hg⟩ := Option.isSome_iff_exists.1 hh
    obtain ⟨header, h', hh', hg'⟩ := hc c hv
    exact ⟨_, by simp [FullProposal.shardHash_eq hg hv, hh', hg']; rfl⟩
  · exact ⟨_, rfl⟩

/-- A chunk that `add_proposed_value` files without panicking has a header and a height. -/
theorem fileable_of_addProposedValue {fp : FullProposal} {v : Validity} {c : ShardChunk}
    (h : s.addProposedValue G fp = .ok (s', v)) (hv : fp.proposedValue = some (.shard c)) :
    Fileable c := by
  simp only [addProposedValue, hv] at h
  obtain ⟨_, -, h⟩ := bind_eq_ok.1 h
  obtain ⟨header, hh, h⟩ := bind_eq_ok.1 h
  obtain ⟨height, hg, -⟩ := bind_eq_ok.1 h
  exact ⟨header, height, unwrap_eq_ok.1 hh, unwrap_eq_ok.1 hg⟩

theorem TableOK.decideLookup_ok (hs : TableOK s) (value : ShardHash) :
    ∃ oc, s.decideLookup value = .ok oc := by
  unfold decideLookup
  cases hv : s.proposedChunks.get value with
  | none => exact ⟨_, rfl⟩
  | some p =>
    obtain ⟨c, hc⟩ := Option.isSome_iff_exists.1 (hs.shard value p hv)
    exact ⟨some c, by simp [hc, Functor.map, Except.map]⟩

theorem decideLookup_some {value : ShardHash} {c : ShardChunk}
    (h : s.decideLookup value = .ok (some c)) :
    ∃ p, s.proposedChunks.get value = some p ∧ p.shardChunk = some c := by
  unfold decideLookup at h
  cases hv : s.proposedChunks.get value with
  | none => simp [hv] at h
  | some p =>
    cases hc : p.shardChunk with
    | none => simp [hv, hc, Functor.map, Except.map] at h
    | some c' =>
      simp only [hv, hc, unwrap_some, Functor.map, Except.map, pure_eq_ok, Except.ok.injEq,
        Option.some.injEq] at h
      exact ⟨p, rfl, h ▸ hc⟩

/-- What `register_validator` republishes is what a peer answered. -/
theorem registerValidator_mem {validator : SnapchainValidator} {peer : ChunkService}
    {cs : List ShardChunk} {c : ShardChunk} (h : s.registerValidator G validator peer = .ok cs)
    (hc : c ∈ cs) : ∃ address req cs', peer address req = .ok cs' ∧ c ∈ cs' := by
  simp only [registerValidator] at h
  split_ifs at h
  · split at h
    · cases h; simp at hc
    · obtain ⟨cs', h1, h2⟩ := bind_eq_ok.1 h
      cases h2
      obtain ⟨c', hc', hcc⟩ := List.mem_flatMap.1 hc
      exact ⟨_, _, cs', h1, mem_publishNewShardChunk hcc ▸ hc'⟩
  · cases h; simp at hc

/-- **What a call other than `decide` sends** is what a peer answered to
`register_validator`. -/
theorem mem_sent_step {c : Call} {o : List Output} {x : ShardChunk} (h : s.step H G c = .ok (s', o))
    (hc : ∀ height round value, c ≠ .decide height round value) (hx : x ∈ sent o) :
    ∃ validator peer address req cs, c = .registerValidator validator peer ∧
      peer address req = .ok cs ∧ x ∈ cs := by
  rcases step_cases h with ⟨_, _, _, _, _, rfl⟩ | ⟨_, _, _, _, rfl⟩ |
    ⟨height, round, value, _, rfl, _⟩ | ⟨validator, peer, rfl, _, _⟩
  · simp [sent] at hx
  · simp [sent] at hx
  · exact absurd rfl (hc height round value)
  · simp only [step] at h
    split at h <;> simp only [pure_eq_ok, Except.ok.injEq, Prod.mk.injEq] at h <;>
      obtain ⟨-, rfl⟩ := h
    · rw [sent_published] at hx
      obtain ⟨address, req, cs, h1, h2⟩ := registerValidator_mem ‹_› hx
      exact ⟨validator, peer, address, req, cs, rfl, h1, h2⟩
    · simp [sent] at hx

/-- **A call other than `decide` files only chunks with a header and a height**: its
own, or a peer's that `add_proposed_value` unwrapped. -/
theorem ChunksFileable.step (hs : ChunksFileable s) {c : Call} {o : List Output}
    (h : s.step H G c = .ok (s', o)) (hc : ∀ height round value, c ≠ .decide height round value) :
    ChunksFileable s' := by
  rcases step_cases h with ⟨height, round, now, -, rfl, -⟩ | ⟨fp, v, -, h1, -⟩ |
    ⟨height, round, value, -, rfl, -⟩ | ⟨-, -, -, rfl, -⟩
  · obtain ⟨k, -, ht⟩ := proposeValue_table (s := s) (H := H) (G := G) height round now
    have := hs.insert (k := k) (p := (s.proposeValue H G height round now).2) fun c hc => by
      simp only [proposeValue_snd, FullProposal.shardChunk, Option.some.injEq] at hc
      subst hc
      exact ⟨_, height, rfl, rfl⟩
    exact fun k p c h => this k p c (ht ▸ h)
  · rcases addProposedValue_cases h1 with ⟨c, k, hv, -, rfl⟩ | ⟨-, rfl, -⟩
    · exact hs.insert fun c' hc' => by
        simp only [FullProposal.shardChunk, hv, Option.some.injEq] at hc'
        exact hc' ▸ fileable_of_addProposedValue h1 hv
    · exact hs
  · exact absurd rfl (hc height round value)
  · exact hs

end ShardProposer

namespace ShardTask

variable {ε : Type} {H : Hasher} {G : ShardEngine ε} {t t' : ShardTask ε}

@[simp] theorem resume_of_none (hr : t.resuming = none) : t.resume G = (t, []) := by
  simp [resume, hr]

theorem resume_of_some {height : Height} {value : ShardHash} {chunk : ShardChunk}
    (hr : t.resuming = some (height, value, chunk)) :
    t.resume G = (⟨t.proposer.decideResume G value chunk, none⟩, [.committed height chunk]) := by
  simp [resume, hr]

/-- **A step of the task**, by what it is: nothing (a call while a `decide` is finishing,
a `decide` without an entry, a resumption with nothing to finish); a `decide` that sends
and stops at its await; another call, answered by the proposer; or the resumption. -/
theorem step_cases {e : Event} {o : List ShardProposer.Output} (h : t.step H G e = .ok (t', o)) :
    (t' = t ∧ o = []) ∨
    (∃ height round value chunk, t.resuming = none ∧
      e = .call (.decide height round value) ∧
      t.proposer.decideLookup value = .ok (some chunk) ∧
      t' = { t with resuming := some (height, value, chunk) } ∧
      o = (t.proposer.publishNewShardChunk chunk).map .published) ∨
    (∃ c s, t.resuming = none ∧ e = .call c ∧ (∀ height round value, c ≠ .decide height round value) ∧
      t.proposer.step H G c = .ok (s, o) ∧ t' = { t with proposer := s }) ∨
    (∃ height value chunk, t.resuming = some (height, value, chunk) ∧ e = .resume ∧
      t' = ⟨t.proposer.decideResume G value chunk, none⟩ ∧ o = [.committed height chunk]) := by
  obtain ⟨p, r⟩ := t
  cases e with
  | resume =>
    cases r with
    | none =>
      simp only [step, resume, pure_eq_ok, Except.ok.injEq, Prod.mk.injEq] at h
      exact .inl ⟨h.1.symm, h.2.symm⟩
    | some x =>
      obtain ⟨height, value, chunk⟩ := x
      simp only [step, resume, pure_eq_ok, Except.ok.injEq, Prod.mk.injEq] at h
      exact .inr (.inr (.inr ⟨height, value, chunk, rfl, rfl, h.1.symm, h.2.symm⟩))
  | call c =>
    cases r with
    | some x =>
      simp only [step, call, pure_eq_ok, Except.ok.injEq, Prod.mk.injEq] at h
      exact .inl ⟨h.1.symm, h.2.symm⟩
    | none =>
      cases c with
      | decide height round value =>
        obtain ⟨oc, h1, h2⟩ := bind_eq_ok.1 h
        cases oc with
        | none =>
          simp only [pure_eq_ok, Except.ok.injEq, Prod.mk.injEq] at h2
          exact .inl ⟨h2.1.symm, h2.2.symm⟩
        | some chunk =>
          simp only [pure_eq_ok, Except.ok.injEq, Prod.mk.injEq] at h2
          exact .inr (.inl ⟨height, round, value, chunk, rfl, rfl, h1, h2.1.symm, h2.2.symm⟩)
      | _ =>
        obtain ⟨⟨s, o'⟩, h1, h2⟩ := bind_eq_ok.1 h
        simp only [pure_eq_ok, Except.ok.injEq, Prod.mk.injEq] at h2
        obtain ⟨rfl, rfl⟩ := h2
        exact .inr (.inr (.inl ⟨_, s, rfl, rfl, nofun, h1, rfl⟩))

/-! ## The settled view -/

/-- **One step, settled.** The proposer a step starts from, settled, reaches by the
proposer's own calls the proposer it ends at, settled; what the start still had to
output, then those calls' outputs, are the step's outputs, then what the end still has
to output. -/
theorem step_settles {e : Event} {o : List ShardProposer.Output} (h : t.step H G e = .ok (t', o)) :
    ∃ calls o', (t.resume G).1.proposer.run H G calls = .ok ((t'.resume G).1.proposer, o') ∧
      (t.resume G).2 ++ o' = o ++ (t'.resume G).2 := by
  rcases step_cases h with ⟨rfl, rfl⟩ | ⟨height, round, value, chunk, hr, rfl, hl, rfl, rfl⟩ |
    ⟨c, s, hr, rfl, -, hs, rfl⟩ | ⟨height, value, chunk, hr, rfl, rfl, rfl⟩
  · exact ⟨[], [], rfl, by simp⟩
  · refine ⟨[.decide height round value],
      (t.proposer.publishNewShardChunk chunk).map .published ++ [.committed height chunk], ?_, ?_⟩
    · rw [resume_of_none hr, resume_of_some rfl]
      simp [ShardProposer.run, runSteps, ShardProposer.step, ShardProposer.decide, hl]
    · rw [resume_of_none hr, resume_of_some rfl, List.nil_append]
  · have hr' : ({ t with proposer := s } : ShardTask ε).resuming = none := hr
    refine ⟨[c], o, ?_, by simp [hr, hr']⟩
    rw [resume_of_none hr, resume_of_none hr']
    simp [ShardProposer.run, runSteps, hs]
  · refine ⟨[], [], ?_, by simp [resume_of_some hr]⟩
    rw [resume_of_some hr, resume_of_none rfl]
    rfl

/-- Every run, settled: as `step_settles`, for the whole run. -/
theorem run_settles {es : List Event} {os : List ShardProposer.Output}
    (h : t.run H G es = .ok (t', os)) :
    ∃ calls o', (t.resume G).1.proposer.run H G calls = .ok ((t'.resume G).1.proposer, o') ∧
      (t.resume G).2 ++ o' = os ++ (t'.resume G).2 := by
  refine runSteps_trace_nil (Q := fun t' os => ∃ calls o',
      (t.resume G).1.proposer.run H G calls = .ok ((t'.resume G).1.proposer, o') ∧
      (t.resume G).2 ++ o' = os ++ (t'.resume G).2) ?_ ?_ h
  · rintro _ acc _ _ o ⟨calls, o', h1, h2⟩ hs
    obtain ⟨calls', o'', h3, h4⟩ := step_settles hs
    refine ⟨calls ++ calls', o' ++ o'', ?_, ?_⟩
    · rw [ShardProposer.run, runSteps_append_of_ok h1, ← ShardProposer.run, h3]
      rfl
    · rw [← List.append_assoc, h2, List.append_assoc, h4, List.append_assoc]
  · exact ⟨[], [], rfl, by simp⟩

/-- **The split `decide` is `decide`, over every run.** A run of a shard task with no
decision in progress, its steps interleaved in any way with the resumptions, is a run of
the proposer's own calls: once the decision in progress at its end, if any, resumes, the
proposer is the one those calls leave, and the outputs are theirs, in order. -/
theorem run_refines_proposer (hr : t.resuming = none) {es : List Event}
    {os : List ShardProposer.Output} (h : t.run H G es = .ok (t', os)) :
    ∃ calls, t.proposer.run H G calls = .ok ((t'.resume G).1.proposer, os ++ (t'.resume G).2) := by
  obtain ⟨calls, o', h1, h2⟩ := run_settles h
  rw [resume_of_none hr, List.nil_append] at h2
  rw [resume_of_none hr] at h1
  exact ⟨calls, h2 ▸ h1⟩

/-! ## Steps that cannot panic -/

/-- A step the task can take without panicking: a peer's proposal with a height whose
chunk, if it carries one, has a header and a height; a peer that answers
`register_validator` with such chunks. -/
def Event.Sound : Event → Prop
  | .call (.addProposedValue fp) =>
    fp.height.isSome ∧ ∀ c, fp.proposedValue = some (.shard c) → Fileable c
  | .call (.registerValidator _ peer) =>
    ∀ address req cs, peer address req = .ok cs → ∀ c ∈ cs, Fileable c
  | _ => True

/-- A task the block proposer can always take from: its table is well formed, and every
chunk in it, and the chunk being decided, has a header and a height. -/
structure OK (t : ShardTask ε) : Prop where
  table : ShardProposer.TableOK t.proposer
  fileable : t.proposer.ChunksFileable
  resuming : ∀ height value c, t.resuming = some (height, value, c) → Fileable c

theorem OK.new (address : Bytes) (shardId : UInt32) (engine : ε) :
    (ShardTask.new address shardId engine).OK :=
  ⟨ShardProposer.TableOK.new _ _ _ _, fun _ _ _ h => by simp [ShardTask.new, ShardProposer.new] at h,
    fun _ _ _ h => by simp [ShardTask.new] at h⟩

/-- A task in good shape does not panic on a step it can answer. -/
theorem OK.step_ok (ht : t.OK) {e : Event} (he : e.Sound) : ∃ r, t.step H G e = .ok r := by
  obtain ⟨p, r⟩ := t
  cases e with
  | resume => exact ⟨_, rfl⟩
  | call c =>
    cases r with
    | some _ => exact ⟨_, rfl⟩
    | none =>
      cases c with
      | proposeValue => exact ⟨_, rfl⟩
      | addProposedValue fp =>
        obtain ⟨r, hr⟩ := ShardProposer.addProposedValue_ok_of (s := p) (G := G) he.1 he.2
        exact ⟨_, by simp only [step, call, ShardProposer.step, hr, ok_bind]; rfl⟩
      | decide height round value =>
        obtain ⟨oc, hoc⟩ := ht.table.decideLookup_ok value
        cases oc <;> exact ⟨_, by simp only [step, call, hoc, ok_bind]; rfl⟩
      | registerValidator v peer =>
        cases hr : p.registerValidator G v peer <;>
          exact ⟨_, by simp only [step, call, ShardProposer.step, hr]; rfl⟩

/-- **A step keeps a task in good shape**, and what it sends can be filed. -/
theorem OK.step_of_ok (ht : t.OK) {e : Event} (he : e.Sound) {o : List ShardProposer.Output}
    (h : t.step H G e = .ok (t', o)) : t'.OK ∧ ∀ c ∈ ShardProposer.sent o, Fileable c := by
  rcases step_cases h with ⟨rfl, rfl⟩ | ⟨height, round, value, chunk, -, rfl, hl, rfl, rfl⟩ |
    ⟨c, s, hr, rfl, hc, hs, rfl⟩ | ⟨height, value, chunk, -, rfl, rfl, rfl⟩
  · exact ⟨ht, by simp [ShardProposer.sent]⟩
  · obtain ⟨p, hp, hpc⟩ := ShardProposer.decideLookup_some hl
    have hf := ht.fileable value p chunk hp hpc
    refine ⟨⟨ht.table, ht.fileable, ?_⟩, fun c hc => ?_⟩
    · rintro _ _ c ⟨⟩
      exact hf
    · rw [ShardProposer.sent_published] at hc
      exact ShardProposer.mem_publishNewShardChunk hc ▸ hf
  · refine ⟨⟨ht.table.step hs, ht.fileable.step hs hc, by simp [hr]⟩, fun x hx => ?_⟩
    obtain ⟨_, _, address, req, cs, rfl, h1, h2⟩ := ShardProposer.mem_sent_step hs hc hx
    exact he address req cs h1 x h2
  · refine ⟨⟨ht.table.decideResume value chunk, fun k p c hp hc => ?_, by simp⟩,
      by simp [ShardProposer.sent]⟩
    simp only [ShardProposer.decideResume_proposedChunks, BTreeMap.get_remove] at hp
    split_ifs at hp
    exact ht.fileable k p c hp hc

/-- **A task in good shape takes every step it can answer**, without panicking, stays in
good shape, and sends only chunks the block proposer can file. -/
theorem OK.step (ht : t.OK) {e : Event} (he : e.Sound) :
    ∃ t' o, t.step H G e = .ok (t', o) ∧ t'.OK ∧ ∀ c ∈ ShardProposer.sent o, Fileable c := by
  obtain ⟨⟨t', o⟩, h⟩ := ht.step_ok (H := H) (G := G) he
  exact ⟨t', o, h, ht.step_of_ok he h⟩

end ShardTask

end Snapchain
