import Mathlib.Logic.Basic

/-!
# Messages, keys and tables of the proposer/decider pipeline

The protobuf messages the proposers build and exchange (`proto::snapchain`), the
`ShardHash` key of the proposal tables, `BTreeMap` read by key, and an `Option::unwrap`
that fails as a `Panic`.

Byte strings are lists of `UInt8`; block numbers are `u64`, shard indices `u32`, a round
is the `i64` that `Round::as_i64` gives. The hashing (`prost` encoding and BLAKE3) is
outside the sources and is a parameter, `Hasher`.
-/

namespace Snapchain

instance decEqExcept {ε α : Type} [DecidableEq ε] [DecidableEq α] : DecidableEq (Except ε α)
  | .ok a, .ok b => decidable_of_iff (a = b) ⟨congrArg _, Except.ok.inj⟩
  | .error a, .error b => decidable_of_iff (a = b) ⟨congrArg _, Except.error.inj⟩
  | .ok _, .error _ => isFalse Except.noConfusion
  | .error _, .ok _ => isFalse Except.noConfusion

/-- A `Vec<u8>`. -/
abbrev Bytes := List UInt8

/-- `Height`: a shard and a block number in it. -/
structure Height where
  shardIndex : UInt32
  blockNumber : UInt64
  deriving DecidableEq, Repr

/-- A transaction, by its encoding: the pipeline never looks inside one. -/
structure Transaction where
  encoded : Bytes
  deriving DecidableEq, Repr

structure ShardHeader where
  parentHash : Bytes
  timestamp : UInt64
  height : Option Height
  shardRoot : Bytes
  deriving DecidableEq, Repr

structure ShardChunk where
  header : Option ShardHeader
  hash : Bytes
  transactions : List Transaction
  votes : Option Bytes
  deriving DecidableEq, Repr

structure BlockHeader where
  parentHash : Bytes
  chainId : UInt32
  version : UInt32
  shardHeadersHash : Bytes
  validatorsHash : Bytes
  timestamp : UInt64
  height : Option Height
  deriving DecidableEq, Repr

structure Block where
  header : Option BlockHeader
  hash : Bytes
  validators : Option Bytes
  votes : Option Bytes
  shardChunks : List ShardChunk
  deriving DecidableEq, Repr

/-- `proto::full_proposal::ProposedValue`: the tagged payload of a proposal. -/
inductive ProposedValue where
  | shard (chunk : ShardChunk)
  | block (block : Block)
  deriving DecidableEq, Repr

structure FullProposal where
  height : Option Height
  round : Int
  proposedValue : Option ProposedValue
  proposer : Bytes
  deriving DecidableEq, Repr

/-- The key of the proposal tables. -/
structure ShardHash where
  hash : Bytes
  shardIndex : UInt32
  deriving DecidableEq, Repr

/-- What the shard engine proposes and validates. -/
structure ShardStateChange where
  shardId : UInt32
  newStateRoot : Bytes
  transactions : List Transaction
  deriving DecidableEq, Repr

/-- `SnapchainValidator`, with the fields `register_validator` reads. -/
structure SnapchainValidator where
  rpcAddress : Option String
  currentHeight : UInt64
  deriving DecidableEq, Repr

/-- `malachite_common::Validity`. -/
inductive Validity where
  | valid
  | invalid
  deriving DecidableEq, Repr

/-- The parent hash of the first chunk and of the first block: the source writes
`vec![0, 32]`, two bytes. -/
def genesisParentHash : Bytes := [0, 32]

/-! ## Panics -/

/-- An `Option::unwrap` on `None`, named by what was unwrapped. -/
inductive Panic where
  | header
  | height
  | proposalHeight
  | proposedValue
  | shardChunk
  | block
  deriving DecidableEq, Repr

/-- `Option::unwrap`. -/
def unwrap {α : Type} : Option α → Panic → Except Panic α
  | some a, _ => .ok a
  | none, p => .error p

@[simp] theorem unwrap_some {α : Type} (a : α) (p : Panic) : unwrap (some a) p = .ok a := rfl

@[simp] theorem unwrap_none {α : Type} (p : Panic) : unwrap (none : Option α) p = .error p := rfl

theorem unwrap_eq_ok {α : Type} {o : Option α} {p : Panic} {a : α} :
    unwrap o p = .ok a ↔ o = some a := by
  cases o <;> simp [unwrap]

theorem bind_eq_ok {ε α β : Type} {x : Except ε α} {f : α → Except ε β} {b : β} :
    x >>= f = .ok b ↔ ∃ a, x = .ok a ∧ f a = .ok b := by
  cases x <;> simp [bind, Except.bind]

@[simp] theorem ok_bind {ε α β : Type} (a : α) (f : α → Except ε β) :
    (Except.ok a >>= f) = f a := rfl

@[simp] theorem error_bind {ε α β : Type} (e : ε) (f : α → Except ε β) :
    (Except.error e >>= f) = .error e := rfl

@[simp] theorem pure_eq_ok {ε α : Type} (a : α) : (pure a : Except ε α) = .ok a := rfl

/-! ## Runs -/

section Runs

variable {σ ι ο : Type} (step : σ → ι → Except Panic (σ × List ο))

/-- Steps in order, each from the state the one before left, their outputs joined; a
panic ends the run. -/
def runSteps : σ → List ι → Except Panic (σ × List ο)
  | s, [] => pure (s, [])
  | s, i :: is => do
    let (s, o) ← step s i
    let (s, os) ← runSteps s is
    pure (s, o ++ os)

variable {step}

theorem runSteps_cons {s s'' : σ} {i : ι} {is : List ι} {os : List ο} :
    runSteps step s (i :: is) = .ok (s'', os) ↔
      ∃ s' o os', step s i = .ok (s', o) ∧ runSteps step s' is = .ok (s'', os') ∧
        os = o ++ os' := by
  simp only [runSteps, bind_eq_ok, Prod.exists, pure_eq_ok, Except.ok.injEq, Prod.mk.injEq]
  constructor
  · rintro ⟨s', o, h1, s2, os', h2, rfl, rfl⟩; exact ⟨s', o, os', h1, h2, rfl⟩
  · rintro ⟨s', o, os', h1, h2, rfl⟩; exact ⟨s', o, h1, s'', os', h2, rfl, rfl⟩

theorem runSteps_cons_of_ok {s s' : σ} {i : ι} {is : List ι} {o : List ο}
    (h : step s i = .ok (s', o)) :
    runSteps step s (i :: is) = (runSteps step s' is).map fun r => (r.1, o ++ r.2) := by
  simp only [runSteps, h, ok_bind]
  cases runSteps step s' is <;> rfl

/-- **A property of the state and the outputs so far that every step keeps holds after
every run.** -/
theorem runSteps_trace {Q : σ → List ο → Prop}
    (hstep : ∀ s acc i s' o, Q s acc → step s i = .ok (s', o) → Q s' (acc ++ o)) :
    ∀ {is : List ι} {s s' : σ} {acc os : List ο},
      Q s acc → runSteps step s is = .ok (s', os) → Q s' (acc ++ os)
  | [], s, s', acc, os, hq, h => by
    simp only [runSteps, pure_eq_ok, Except.ok.injEq, Prod.mk.injEq] at h
    obtain ⟨rfl, rfl⟩ := h
    simpa using hq
  | i :: is, s, s', acc, os, hq, h => by
    obtain ⟨s1, o, os', h1, h2, rfl⟩ := runSteps_cons.1 h
    simpa using runSteps_trace hstep (hstep s acc i s1 o hq h1) h2

/-- A property of the state and the outputs that every step keeps and the start has,
before any output, holds after every run. -/
theorem runSteps_trace_nil {Q : σ → List ο → Prop}
    (hstep : ∀ s acc i s' o, Q s acc → step s i = .ok (s', o) → Q s' (acc ++ o))
    {is : List ι} {s s' : σ} {os : List ο} (hq : Q s []) (h : runSteps step s is = .ok (s', os)) :
    Q s' os :=
  runSteps_trace hstep hq h

/-- A state invariant that every step keeps holds after every run. -/
theorem runSteps_inv {P : σ → Prop} (hstep : ∀ s i s' o, P s → step s i = .ok (s', o) → P s')
    {is : List ι} {s s' : σ} {os : List ο} (hp : P s) (h : runSteps step s is = .ok (s', os)) :
    P s' :=
  runSteps_trace_nil (Q := fun s _ => P s) (fun s _ i s' o hq hs => hstep s i s' o hq hs) hp h

/-- A state invariant that every step of a kind `E` keeps holds after every run of such
steps. -/
theorem runSteps_inv_of {P : σ → Prop} {E : ι → Prop}
    (hstep : ∀ s i s' o, E i → P s → step s i = .ok (s', o) → P s') :
    ∀ {is : List ι} {s s' : σ} {os : List ο}, (∀ i ∈ is, E i) → P s →
      runSteps step s is = .ok (s', os) → P s'
  | [], s, s', os, _, hp, h => by
    simp only [runSteps, pure_eq_ok, Except.ok.injEq, Prod.mk.injEq] at h
    exact h.1 ▸ hp
  | i :: is, s, s', os, he, hp, h => by
    obtain ⟨s1, o, os', h1, h2, -⟩ := runSteps_cons.1 h
    exact runSteps_inv_of hstep (fun j hj => he j (List.mem_cons_of_mem _ hj))
      (hstep s i s1 o (he i (List.mem_cons_self _ _)) hp h1) h2

theorem runSteps_append_of_ok {s s' : σ} {is js : List ι} {os : List ο}
    (h : runSteps step s is = .ok (s', os)) :
    runSteps step s (is ++ js) = (runSteps step s' js).map fun r => (r.1, os ++ r.2) := by
  induction is generalizing s os with
  | nil =>
    simp only [runSteps, pure_eq_ok, Except.ok.injEq, Prod.mk.injEq] at h
    obtain ⟨rfl, rfl⟩ := h
    rw [List.nil_append]
    cases runSteps step s js <;> simp [Except.map]
  | cons i is ih =>
    obtain ⟨s1, o, os', h1, h2, rfl⟩ := runSteps_cons.1 h
    rw [List.cons_append, runSteps_cons_of_ok h1, ih h2]
    cases runSteps step s' js <;> simp [Except.map]

section Simulation

variable {σ' ι' ο' : Type} {step' : σ' → ι' → Except Panic (σ' × List ο')}
  {R : σ → σ' → Prop} {φ : ο → Option ο'}

/-- **Simulation by a fixed map of the steps.** When every step from a state related to
`s₁` is matched by the steps `f i` of `step'` from `s₁`, with the outputs `φ` keeps,
every run is matched by the run of the mapped steps. -/
theorem runSteps_simulate {f : ι → List ι'}
    (hstep : ∀ s s₁ i s' o, R s s₁ → step s i = .ok (s', o) →
      ∃ s₁', R s' s₁' ∧ runSteps step' s₁ (f i) = .ok (s₁', o.filterMap φ)) :
    ∀ {is : List ι} {s s' : σ} {s₁ : σ'} {os : List ο}, R s s₁ →
      runSteps step s is = .ok (s', os) →
      ∃ s₁', R s' s₁' ∧ runSteps step' s₁ (is.flatMap f) = .ok (s₁', os.filterMap φ)
  | [], s, s', s₁, os, hr, h => by
    simp only [runSteps, pure_eq_ok, Except.ok.injEq, Prod.mk.injEq] at h
    obtain ⟨rfl, rfl⟩ := h
    exact ⟨s₁, hr, rfl⟩
  | i :: is, s, s', s₁, os, hr, h => by
    obtain ⟨s2, o, os', h1, h2, rfl⟩ := runSteps_cons.1 h
    obtain ⟨s₂, hr2, h1'⟩ := hstep s s₁ i s2 o hr h1
    obtain ⟨s₃, hr3, h2'⟩ := runSteps_simulate hstep hr2 h2
    refine ⟨s₃, hr3, ?_⟩
    rw [List.flatMap_cons, runSteps_append_of_ok h1', h2', List.filterMap_append]
    rfl

/-- **Simulation.** When every step from a state related to `s₁` is matched by some
steps of `step'` from `s₁`, with the outputs `φ` keeps, so is every run. -/
theorem runSteps_refines
    (hstep : ∀ s s₁ i s' o, R s s₁ → step s i = .ok (s', o) →
      ∃ js s₁', R s' s₁' ∧ runSteps step' s₁ js = .ok (s₁', o.filterMap φ)) :
    ∀ {is : List ι} {s s' : σ} {s₁ : σ'} {os : List ο}, R s s₁ →
      runSteps step s is = .ok (s', os) →
      ∃ js s₁', R s' s₁' ∧ runSteps step' s₁ js = .ok (s₁', os.filterMap φ)
  | [], s, s', s₁, os, hr, h => by
    simp only [runSteps, pure_eq_ok, Except.ok.injEq, Prod.mk.injEq] at h
    obtain ⟨rfl, rfl⟩ := h
    exact ⟨[], s₁, hr, rfl⟩
  | i :: is, s, s', s₁, os, hr, h => by
    obtain ⟨s2, o, os', h1, h2, rfl⟩ := runSteps_cons.1 h
    obtain ⟨js₁, s₂, hr2, h1'⟩ := hstep s s₁ i s2 o hr h1
    obtain ⟨js₂, s₃, hr3, h2'⟩ := runSteps_refines hstep hr2 h2
    refine ⟨js₁ ++ js₂, s₃, hr3, ?_⟩
    rw [runSteps_append_of_ok h1', h2', List.filterMap_append]
    rfl

end Simulation

/-- **A run that does not panic is one whose every step does not.** When each step
from a state satisfying `P` keeps `P` and does not panic, a run from such a state does
not panic. -/
theorem runSteps_ok {P : σ → Prop} {E : ι → Prop}
    (hstep : ∀ s i, P s → E i → ∃ s' o, step s i = .ok (s', o) ∧ P s') :
    ∀ {is : List ι} {s : σ}, P s → (∀ i ∈ is, E i) →
      ∃ s' os, runSteps step s is = .ok (s', os) ∧ P s'
  | [], s, hp, _ => ⟨s, [], rfl, hp⟩
  | i :: is, s, hp, he => by
    obtain ⟨s1, o, h1, hp1⟩ := hstep s i hp (he i (List.mem_cons_self _ _))
    obtain ⟨s', os, h2, hp'⟩ := runSteps_ok hstep hp1 fun j hj => he j (List.mem_cons_of_mem _ hj)
    exact ⟨s', o ++ os, runSteps_cons.2 ⟨s1, o, os, h1, h2, rfl⟩, hp'⟩

end Runs

/-! ## `BTreeMap` -/

/-- A `BTreeMap`, read by key: the proposers never iterate one. -/
@[ext]
structure BTreeMap (κ ν : Type) where
  get : κ → Option ν

namespace BTreeMap

variable {κ ν : Type}

def new : BTreeMap κ ν := ⟨fun _ => none⟩

@[simp] theorem get_new (k : κ) : (new : BTreeMap κ ν).get k = none := rfl

variable [DecidableEq κ]

def insert (m : BTreeMap κ ν) (k : κ) (v : ν) : BTreeMap κ ν :=
  ⟨fun k' => if k' = k then some v else m.get k'⟩

def remove (m : BTreeMap κ ν) (k : κ) : BTreeMap κ ν :=
  ⟨fun k' => if k' = k then none else m.get k'⟩

@[simp] theorem get_insert (m : BTreeMap κ ν) (k k' : κ) (v : ν) :
    (m.insert k v).get k' = if k' = k then some v else m.get k' := rfl

@[simp] theorem get_remove (m : BTreeMap κ ν) (k k' : κ) :
    (m.remove k).get k' = if k' = k then none else m.get k' := rfl

end BTreeMap

/-! ## Hashing and the accessors of `FullProposal` -/

/-- The hashing of `propose_value`: prost's `encode_to_vec` of a header, then BLAKE3. -/
structure Hasher where
  encodeShardHeader : ShardHeader → Bytes
  encodeBlockHeader : BlockHeader → Bytes
  blake3 : Bytes → Bytes

/-- `blake3::hash(&shard_header.encode_to_vec())`. -/
def Hasher.shardHeader (H : Hasher) (h : ShardHeader) : Bytes := H.blake3 (H.encodeShardHeader h)

/-- `blake3::hash(&block_header.encode_to_vec())`. -/
def Hasher.blockHeader (H : Hasher) (h : BlockHeader) : Bytes := H.blake3 (H.encodeBlockHeader h)

/-- The hash field of the inner value. -/
def ProposedValue.hash : ProposedValue → Bytes
  | .shard c => c.hash
  | .block b => b.hash

/-- Modelled from the spec: `FullProposal::shard_hash` (core/types, not in the sources) is
"(hash of inner value, shard_index of height)"; a missing height or value is unwrapped. -/
def FullProposal.shardHash (fp : FullProposal) : Except Panic ShardHash := do
  let height ← unwrap fp.height .proposalHeight
  let value ← unwrap fp.proposedValue .proposedValue
  pure ⟨value.hash, height.shardIndex⟩

/-- Modelled from the spec: `FullProposal::shard_chunk`, the chunk of a `Shard` payload. -/
def FullProposal.shardChunk (fp : FullProposal) : Option ShardChunk :=
  match fp.proposedValue with
  | some (.shard c) => some c
  | _ => none

/-- Modelled from the spec: `FullProposal::block`, the block of a `Block` payload. -/
def FullProposal.block (fp : FullProposal) : Option Block :=
  match fp.proposedValue with
  | some (.block b) => some b
  | _ => none

@[simp] theorem FullProposal.shardHash_eq {fp : FullProposal} {h : Height} {v : ProposedValue}
    (hh : fp.height = some h) (hv : fp.proposedValue = some v) :
    fp.shardHash = .ok ⟨v.hash, h.shardIndex⟩ := by
  simp [shardHash, hh, hv, bind, Except.bind, pure, Except.pure]

end Snapchain
