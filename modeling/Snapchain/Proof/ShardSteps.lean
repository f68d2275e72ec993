import Snapchain.Spec.ShardProposer

/-!
# What each call does to a shard proposer

One lemma per operation says everything the operation can do to the proposer, and
`step_cases` collects them for a call. The invariants of later modules are proved from
these, never by unfolding the operations again.

`TableOK` is the well-formedness of the proposal table: every entry is filed under its
own `shard_hash()` and carries a `Shard` payload. It holds in every reachable state
(`TableOK.run`), so `decide` never panics there (`decide_ok`).
-/

namespace Snapchain.ShardProposer

variable {ε : Type} {H : Hasher} {G : ShardEngine ε} {s s' : ShardProposer ε}

/-! ## The operations -/

/-- The header `propose_value` builds at `s`. -/
def ownHeader (G : ShardEngine ε) (s : ShardProposer ε) (height : Height) (now : UInt64) :
    ShardHeader :=
  ⟨s.parentHash, now, some height, (G.proposeStateChange s.engine s.shardId).1.newStateRoot⟩

theorem proposeValue_snd (height : Height) (round : Int) (now : UInt64) :
    (s.proposeValue H G height round now).2 =
      ⟨some height, round, some (.shard ⟨some (ownHeader G s height now),
        H.shardHeader (ownHeader G s height now),
        (G.proposeStateChange s.engine s.shardId).1.transactions, none⟩), s.address⟩ := rfl

@[simp] theorem proposeValue_chunks (height : Height) (round : Int) (now : UInt64) :
    (s.proposeValue H G height round now).1.chunks = s.chunks := rfl

@[simp] theorem proposeValue_txDecision (height : Height) (round : Int) (now : UInt64) :
    (s.proposeValue H G height round now).1.txDecision = s.txDecision := rfl

/-- `propose_value` files the proposal it returns under that proposal's `shard_hash()`. -/
theorem proposeValue_table (height : Height) (round : Int) (now : UInt64) :
    ∃ k, (s.proposeValue H G height round now).2.shardHash = .ok k ∧
      (s.proposeValue H G height round now).1.proposedChunks =
        s.proposedChunks.insert k (s.proposeValue H G height round now).2 :=
  ⟨_, rfl, rfl⟩

/-- **`add_proposed_value`**: a `Shard` proposal is filed under its `shard_hash()`, and
nothing else changes; any other proposal changes nothing. -/
theorem addProposedValue_cases {fp : FullProposal} {v : Validity}
    (h : s.addProposedValue G fp = .ok (s', v)) :
    (∃ c k, fp.proposedValue = some (.shard c) ∧ fp.shardHash = .ok k ∧
      s' = { s with proposedChunks := s.proposedChunks.insert k fp }) ∨
    ((∀ c, fp.proposedValue ≠ some (.shard c)) ∧ s' = s ∧ v = .invalid) := by
  unfold addProposedValue at h
  split at h
  · rename_i c hc
    cases hk : fp.shardHash with
    | error e => simp [hk] at h
    | ok k =>
      refine .inl ⟨c, k, hc, rfl, ?_⟩
      simp only [hk, ok_bind, bind_eq_ok, pure_eq_ok] at h
      obtain ⟨_, -, _, -, h⟩ := h
      exact (Prod.mk.inj (Except.ok.inj h)).1.symm
  · rename_i hne
    simp only [pure_eq_ok, Except.ok.injEq, Prod.mk.injEq] at h
    exact .inr ⟨fun c hc => hne c hc, h.1.symm, h.2.symm⟩

/-- **`decide`**: without an entry under the key it changes nothing; with one, it takes
the chunk of its `Shard` payload and resumes with it. -/
theorem decide_cases {height : Height} {round : Int} {value : ShardHash}
    {oc : Option ShardChunk} (h : s.decide G height round value = .ok (s', oc)) :
    (s.proposedChunks.get value = none ∧ s' = s ∧ oc = none) ∨
    (∃ p c, s.proposedChunks.get value = some p ∧ p.shardChunk = some c ∧
      s' = s.decideResume G value c ∧ oc = some c) := by
  unfold decide decideLookup at h
  cases hv : s.proposedChunks.get value with
  | none =>
    simp only [hv, pure_eq_ok, ok_bind, Except.ok.injEq, Prod.mk.injEq] at h
    exact .inl ⟨rfl, h.1.symm, h.2.symm⟩
  | some p =>
    cases hc : p.shardChunk with
    | none => simp [hv, hc, Functor.map, Except.map] at h
    | some c =>
      simp only [hv, hc, unwrap_some, Functor.map, Except.map, ok_bind, pure_eq_ok,
        Except.ok.injEq, Prod.mk.injEq] at h
      exact .inr ⟨p, c, rfl, hc, h.1.symm, h.2.symm⟩

@[simp] theorem decideResume_chunks (value : ShardHash) (c : ShardChunk) :
    (s.decideResume G value c).chunks = s.chunks ++ [c] := rfl

@[simp] theorem decideResume_proposedChunks (value : ShardHash) (c : ShardChunk) :
    (s.decideResume G value c).proposedChunks = s.proposedChunks.remove value := rfl

@[simp] theorem decideResume_txDecision (value : ShardHash) (c : ShardChunk) :
    (s.decideResume G value c).txDecision = s.txDecision := rfl

@[simp] theorem sent_append (os o : List Output) : sent (os ++ o) = sent os ++ sent o := by
  induction os with
  | nil => rfl
  | cons x os ih => cases x <;> simp [sent, ih]

@[simp] theorem sent_published (cs : List ShardChunk) : sent (cs.map .published) = cs := by
  induction cs <;> simp_all [sent]

/-- **A call**, by what it is. -/
theorem step_cases {c : Call} {o : List Output} (h : s.step H G c = .ok (s', o)) :
    (∃ height round now, c = .proposeValue height round now ∧
      s' = (s.proposeValue H G height round now).1 ∧
      o = [.proposed (s.proposeValue H G height round now).2]) ∨
    (∃ fp v, c = .addProposedValue fp ∧ s.addProposedValue G fp = .ok (s', v) ∧
      o = [.validity v]) ∨
    (∃ height round value oc, c = .decide height round value ∧
      s.decide G height round value = .ok (s', oc) ∧
      o = (match oc with
        | none => []
        | some chunk => (s.publishNewShardChunk chunk).map .published ++
            [.committed height chunk])) ∨
    (∃ validator peer, c = .registerValidator validator peer ∧ s' = s ∧
      ∀ x ∈ o, (∃ chunk, x = .published chunk) ∨ ∃ e, x = .rpcError e) := by
  cases c with
  | proposeValue height round now =>
    simp only [step, pure_eq_ok, Except.ok.injEq, Prod.mk.injEq] at h
    exact .inl ⟨height, round, now, rfl, h.1.symm, h.2.symm⟩
  | addProposedValue fp =>
    obtain ⟨⟨s1, v⟩, h1, h2⟩ := bind_eq_ok.1 h
    simp only [pure_eq_ok, Except.ok.injEq, Prod.mk.injEq] at h2
    obtain ⟨rfl, rfl⟩ := h2
    exact .inr (.inl ⟨fp, v, rfl, h1, rfl⟩)
  | decide height round value =>
    obtain ⟨⟨s1, oc⟩, h1, h2⟩ := bind_eq_ok.1 h
    refine .inr (.inr (.inl ⟨height, round, value, oc, rfl, ?_⟩))
    cases oc <;>
    · simp only [pure_eq_ok, Except.ok.injEq, Prod.mk.injEq] at h2
      obtain ⟨rfl, rfl⟩ := h2
      exact ⟨h1, rfl⟩
  | registerValidator validator peer =>
    refine .inr (.inr (.inr ⟨validator, peer, rfl, ?_⟩))
    simp only [step] at h
    split at h <;>
    · simp only [pure_eq_ok, Except.ok.injEq, Prod.mk.injEq] at h
      obtain ⟨rfl, rfl⟩ := h
      simp

/-! ## The proposal table -/

/-- The proposal table is well formed: each entry is filed under its own
`shard_hash()` and carries a `Shard` payload. -/
structure TableOK (s : ShardProposer ε) : Prop where
  keyed : ∀ k p, s.proposedChunks.get k = some p → p.shardHash = .ok k
  shard : ∀ k p, s.proposedChunks.get k = some p → p.shardChunk.isSome

theorem TableOK.new (address : Bytes) (shardId : UInt32) (engine : ε) (txDecision : Bool) :
    TableOK (ShardProposer.new address shardId engine txDecision) :=
  ⟨fun _ _ h => by simp [ShardProposer.new] at h, fun _ _ h => by simp [ShardProposer.new] at h⟩

/-- Filing a well-formed entry keeps the table well formed. -/
theorem TableOK.insert (hs : TableOK s) {k : ShardHash} {p : FullProposal}
    (hk : p.shardHash = .ok k) (hp : p.shardChunk.isSome) :
    TableOK { s with proposedChunks := s.proposedChunks.insert k p } := by
  constructor <;> intro k' p' h <;> simp only [BTreeMap.get_insert] at h <;> split_ifs at h
  · cases h; subst k'; exact hk
  · exact hs.keyed k' p' h
  · cases h; exact hp
  · exact hs.shard k' p' h

theorem TableOK.decideResume (hs : TableOK s) (value : ShardHash) (c : ShardChunk) :
    TableOK (s.decideResume G value c) := by
  constructor <;> intro k p h <;> simp only [decideResume_proposedChunks,
    BTreeMap.get_remove] at h <;> split_ifs at h
  · exact hs.keyed k p h
  · exact hs.shard k p h

/-- **Every call keeps the proposal table well formed.** -/
theorem TableOK.step (hs : TableOK s) {c : Call} {o : List Output}
    (h : s.step H G c = .ok (s', o)) : TableOK s' := by
  rcases step_cases h with ⟨height, round, now, -, rfl, -⟩ | ⟨fp, v, -, h1, -⟩ |
    ⟨height, round, value, oc, -, h1, -⟩ | ⟨-, -, -, rfl, -⟩
  · obtain ⟨k, hk, ht⟩ := proposeValue_table (s := s) (H := H) (G := G) height round now
    have := hs.insert hk (by simp [proposeValue_snd, FullProposal.shardChunk])
    exact ⟨fun k p h => this.keyed k p (ht ▸ h), fun k p h => this.shard k p (ht ▸ h)⟩
  · rcases addProposedValue_cases h1 with ⟨c, k, hc, hk, rfl⟩ | ⟨-, rfl, -⟩
    · exact hs.insert hk (by simp [FullProposal.shardChunk, hc])
    · exact hs
  · rcases decide_cases h1 with ⟨-, rfl, -⟩ | ⟨p, c, -, -, rfl, -⟩
    · exact hs
    · exact hs.decideResume value c
  · exact hs

/-- The proposal table is well formed after every run from a new proposer. -/
theorem TableOK.run {address : Bytes} {shardId : UInt32} {engine : ε} {txDecision : Bool}
    {calls : List Call} {os : List Output}
    (h : (ShardProposer.new address shardId engine txDecision).run H G calls = .ok (s, os)) :
    TableOK s :=
  runSteps_inv (fun _ _ _ _ hs hstep => hs.step hstep) (TableOK.new _ _ _ _) h

/-- In a well-formed table, `decide` finds a `Shard` payload whenever it finds an entry:
its `shard_chunk().unwrap()` never panics. -/
theorem TableOK.decide_ok (hs : TableOK s) (height : Height) (round : Int) (value : ShardHash) :
    ∃ r, s.decide G height round value = .ok r := by
  unfold decide decideLookup
  cases hv : s.proposedChunks.get value with
  | none => exact ⟨_, rfl⟩
  | some p =>
    obtain ⟨c, hc⟩ := Option.isSome_iff_exists.1 (hs.shard value p hv)
    exact ⟨(s.decideResume G value c, some c), by simp [hc, Functor.map, Except.map]⟩

end Snapchain.ShardProposer
