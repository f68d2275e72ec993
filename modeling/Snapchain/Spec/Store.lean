import Snapchain.Spec.Types
import Mathlib.Data.List.Lex

/-!
# The shard store (`storage/store/shard.rs`)

A shard chunk is stored under `make_shard_key(block_number)`: the byte of
`RootPrefix::Shard` and the block number in eight big-endian bytes. Reads go through
RocksDB's paged iterator, one page of decoded chunks at a time.

RocksDB itself (`storage/db`) is not in the sources. It is modelled from the spec as
a list of entries in ascending bytewise key order, and its iterator as the spec and
the paging contract describe it: keys from the start key (included) to the stop key
(excluded, no bound when there is none), ascending or descending, resuming strictly
past a page token.
-/

namespace Snapchain

/-! ## RocksDB -/

/-- RocksDB's key order: bytewise lexicographic. -/
def keyLt (a b : Bytes) : Prop := a.map UInt8.toNat < b.map UInt8.toNat

instance : DecidableRel keyLt := fun a b =>
  inferInstanceAs (Decidable (a.map UInt8.toNat < b.map UInt8.toNat))

theorem keyLt_irrefl (a : Bytes) : ¬ keyLt a a := lt_irrefl _

theorem keyLt_trans {a b c : Bytes} : keyLt a b → keyLt b c → keyLt a c := lt_trans

theorem keyLt_asymm {a b : Bytes} (h : keyLt a b) : ¬ keyLt b a := lt_asymm h

theorem keyLt_of_not_lt {a b : Bytes} (h : ¬ keyLt a b) (hne : a ≠ b) : keyLt b a := by
  rcases lt_trichotomy (a.map UInt8.toNat) (b.map UInt8.toNat) with h1 | h1 | h1
  · exact absurd h1 h
  · exact absurd (List.map_injective_iff.2 (fun _ _ => UInt8.toNat.inj) h1) hne
  · exact h1

/-- Entries in strictly ascending key order. -/
def KeySorted {ν : Type} (l : List (Bytes × ν)) : Prop := l.Pairwise fun a b => keyLt a.1 b.1

instance {ν : Type} (l : List (Bytes × ν)) : Decidable (KeySorted l) :=
  inferInstanceAs (Decidable (l.Pairwise _))

/-- Modelled from the spec: a RocksDB instance, its entries in ascending key order. Values
are opaque to it: `ν` stands for their bytes. -/
structure RocksDB (ν : Type) where
  entries : List (Bytes × ν)
  sorted : KeySorted entries

/-- Modelled from the spec: `PageOptions`. -/
structure PageOptions where
  pageSize : Option Nat
  pageToken : Option Bytes
  reverse : Bool

/-- `RocksdbError`, as the store meets it: a value that does not decode. -/
inductive RocksdbError where
  | decodeError
  deriving DecidableEq, Repr

variable {ν σ : Type}

/-- At or above the start key, and below the stop key. -/
def inBounds (start stop : Option Bytes) (k : Bytes) : Bool :=
  start.all (fun s => !decide (keyLt k s)) && stop.all (fun s => decide (keyLt k s))

/-- Strictly past the page token, in the direction of the scan. -/
def pastToken (reverse : Bool) (token : Option Bytes) (k : Bytes) : Bool :=
  token.all fun t => if reverse then decide (keyLt k t) else decide (keyLt t k)

/-- Modelled from the spec: the entries `for_each_iterator_by_prefix_paged` visits, in order. -/
def RocksDB.visit (db : RocksDB ν) (start stop : Option Bytes) (opts : PageOptions) :
    List (Bytes × ν) :=
  let keys := db.entries.filter fun e =>
    inBounds start stop e.1 && pastToken opts.reverse opts.pageToken e.1
  if opts.reverse then keys.reverse else keys

/-- The callback loop: run `f` on each entry until it returns `Ok(true)` or an error. -/
def forEachEntry (f : σ → Bytes → ν → Except RocksdbError (σ × Bool)) :
    List (Bytes × ν) → σ → Except RocksdbError σ
  | [], s => .ok s
  | (k, v) :: rest, s => do
    let (s', stop) ← f s k v
    if stop then pure s' else forEachEntry f rest s'

/-- Modelled from the spec: `RocksDB::for_each_iterator_by_prefix_paged`. -/
def RocksDB.forEachIteratorByPrefixPaged (db : RocksDB ν) (start stop : Option Bytes)
    (opts : PageOptions) (f : σ → Bytes → ν → Except RocksdbError (σ × Bool)) (s : σ) :
    Except RocksdbError σ :=
  forEachEntry f (db.visit start stop opts) s

/-- Set the entry under `k` to `v`, keeping the order. -/
def insertEntry (k : Bytes) (v : ν) : List (Bytes × ν) → List (Bytes × ν)
  | [] => [(k, v)]
  | e :: rest =>
    if keyLt k e.1 then (k, v) :: e :: rest
    else if k = e.1 then (k, v) :: rest
    else e :: insertEntry k v rest

theorem mem_insertEntry {k : Bytes} {v : ν} {e : Bytes × ν} :
    ∀ {l : List (Bytes × ν)}, e ∈ insertEntry k v l → e = (k, v) ∨ e ∈ l
  | [], h => by simpa [insertEntry] using h
  | x :: rest, h => by
    unfold insertEntry at h
    split_ifs at h
    · simpa using h
    · simp only [List.mem_cons] at h ⊢; tauto
    · rcases List.mem_cons.1 h with h | h
      · exact .inr (h ▸ List.mem_cons_self _ _)
      · exact (mem_insertEntry h).imp_right (List.mem_cons_of_mem _)

theorem insertEntry_sorted {k : Bytes} {v : ν} :
    ∀ {l : List (Bytes × ν)}, KeySorted l → KeySorted (insertEntry k v l)
  | [], _ => List.pairwise_singleton _ _
  | x :: rest, h => by
    rw [KeySorted, List.pairwise_cons] at h
    unfold insertEntry
    split_ifs with h1 h2
    · refine List.Pairwise.cons (fun y hy => ?_) (List.Pairwise.cons h.1 h.2)
      rcases List.mem_cons.1 hy with rfl | hy
      · exact h1
      · exact keyLt_trans h1 (h.1 y hy)
    · exact List.Pairwise.cons (fun y hy => h2 ▸ h.1 y hy) h.2
    · refine List.Pairwise.cons (fun y hy => ?_) (insertEntry_sorted h.2)
      rcases mem_insertEntry hy with rfl | hy
      · exact keyLt_of_not_lt h1 h2
      · exact h.1 y hy

/-- Modelled from the spec: a transaction holding one `put`, committed. -/
def RocksDB.put (db : RocksDB ν) (k : Bytes) (v : ν) : RocksDB ν :=
  ⟨insertEntry k v db.entries, insertEntry_sorted db.sorted⟩

/-! ## `shard.rs` -/

/-- What the shard store uses and the sources do not hold: the byte of `RootPrefix::Shard`
(`store/block.rs`), `PAGE_SIZE_MAX` (`store/utils.rs`), and prost's encoding and decoding
of a `ShardChunk`. -/
structure StoreEnv (ν : Type) where
  rootPrefixShard : UInt8
  pageSizeMax : Nat
  encode : ShardChunk → ν
  decode : ν → Option ShardChunk

/-- `ShardStorageError`. -/
inductive ShardStorageError where
  | rocksdbError (e : RocksdbError)
  | shardMissingHeader
  | shardMissingHeight
  | tooManyShardsInResult
  deriving DecidableEq, Repr

/-- `ShardPage`. -/
structure ShardPage where
  shardChunks : List ShardChunk
  nextPageToken : Option Bytes
  deriving DecidableEq, Repr

/-- `static PAGE_SIZE: usize = 100`. -/
def pageSize : Nat := 100

/-- `u64::to_be_bytes`. -/
def toBeBytes (n : UInt64) : Bytes :=
  (List.range 8).reverse.map fun i => UInt8.ofNat (n.toNat / Nat.pow 256 i)

variable (E : StoreEnv ν)

/-- `make_shard_key`. -/
def makeShardKey (blockNumber : UInt64) : Bytes := E.rootPrefixShard :: toBeBytes blockNumber

/-- The callback of `get_shard_page_by_prefix`: decode the value and push it; once the
page holds `page_size` chunks, record the key and stop. -/
def pageCallback (pageSize : Nat) (acc : List ShardChunk × Bytes) (key : Bytes) (value : ν) :
    Except RocksdbError ((List ShardChunk × Bytes) × Bool) :=
  match E.decode value with
  | none => .error .decodeError
  | some block =>
    let shardChunks := acc.1 ++ [block]
    if shardChunks.length ≥ pageSize then .ok ((shardChunks, key), true)
    else .ok ((shardChunks, acc.2), false)

/-- `get_shard_page_by_prefix`. -/
def getShardPageByPrefix (db : RocksDB ν) (pageOptions : PageOptions)
    (startPrefix stopPrefix : Option Bytes) : Except ShardStorageError ShardPage :=
  match db.forEachIteratorByPrefixPaged startPrefix stopPrefix pageOptions
      (pageCallback E (pageOptions.pageSize.getD E.pageSizeMax)) ([], []) with
  | .error e => .error (.rocksdbError e)
  | .ok (shardChunks, lastKey) =>
    .ok ⟨shardChunks, if lastKey.length > 0 then some lastKey else none⟩

/-- `get_last_shard_chunk`. -/
def getLastShardChunk (db : RocksDB ν) : Except ShardStorageError (Option ShardChunk) := do
  let startBlockKey := makeShardKey E 0
  let shardPage ← getShardPageByPrefix E db ⟨some 1, none, true⟩ (some startBlockKey) none
  if shardPage.shardChunks.length > 1 then throw .tooManyShardsInResult
  pure shardPage.shardChunks.head?

/-- `get_current_height`. -/
def getCurrentHeight (db : RocksDB ν) : Except ShardStorageError (Option UInt64) := do
  let shardChunk ← getLastShardChunk E db
  match shardChunk with
  | none => pure none
  | some shardChunk =>
    match shardChunk.header with
    | none => pure none
    | some header =>
      match header.height with
      | none => pure none
      | some height => pure (some height.blockNumber)

/-- `put_shard_chunk`. -/
def putShardChunk (db : RocksDB ν) (shardChunk : ShardChunk) :
    Except ShardStorageError (RocksDB ν) :=
  match shardChunk.header with
  | none => .error .shardMissingHeader
  | some header =>
    match header.height with
    | none => .error .shardMissingHeight
    | some height => .ok (db.put (makeShardKey E height.blockNumber) (E.encode shardChunk))

/-- `get_shard_chunks_in_range`. -/
def getShardChunksInRange (db : RocksDB ν) (pageOptions : PageOptions)
    (startBlockNumber : UInt64) (stopBlockNumber : Option UInt64) :
    Except ShardStorageError ShardPage :=
  getShardPageByPrefix E db pageOptions (some (makeShardKey E startBlockNumber))
    (stopBlockNumber.map (makeShardKey E))

/-- `ShardStore`: a handle on the shard's database. -/
structure ShardStore (ν : Type) where
  db : RocksDB ν

/-- The loop of `ShardStore::get_shard_chunks`, for at most `fuel` pages: `none` when they
run out. -/
def getShardChunksLoop (db : RocksDB ν) (start : UInt64) (stop : Option UInt64) :
    Nat → Option Bytes → List ShardChunk → Option (Except ShardStorageError (List ShardChunk))
  | 0, _, _ => none
  | fuel + 1, nextPageToken, shardChunks =>
    match getShardChunksInRange E db ⟨some pageSize, nextPageToken, false⟩ start stop with
    | .error e => some (.error e)
    | .ok shardPage =>
      match shardPage.nextPageToken with
      | none => some (.ok (shardChunks ++ shardPage.shardChunks))
      | some token => getShardChunksLoop db start stop fuel (some token)
          (shardChunks ++ shardPage.shardChunks)

namespace ShardStore

/-- `ShardStore::put_shard_chunk`. -/
def putShardChunk (s : ShardStore ν) (shardChunk : ShardChunk) :
    Except ShardStorageError (ShardStore ν) :=
  (Snapchain.putShardChunk E s.db shardChunk).map (⟨·⟩)

/-- `ShardStore::get_last_shard_chunk`. -/
def getLastShardChunk (s : ShardStore ν) : Except ShardStorageError (Option ShardChunk) :=
  Snapchain.getLastShardChunk E s.db

/-- `ShardStore::max_block_number`. -/
def maxBlockNumber (s : ShardStore ν) : Except ShardStorageError UInt64 := do
  let currentHeight ← getCurrentHeight E s.db
  match currentHeight with
  | none => pure 0
  | some height => pure height

/-- `ShardStore::get_shard_chunks`. The loop has no bound in the source; every page but
the last holds a hundred entries, so one page per entry and one more always suffice, and
the model runs that many. -/
def getShardChunks (s : ShardStore ν) (startBlockNumber : UInt64)
    (stopBlockNumber : Option UInt64) : Option (Except ShardStorageError (List ShardChunk)) :=
  getShardChunksLoop E s.db startBlockNumber stopBlockNumber (s.db.entries.length + 1) none []

end ShardStore

end Snapchain
