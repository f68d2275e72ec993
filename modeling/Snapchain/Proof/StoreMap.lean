import Snapchain.Proof.Store
import Snapchain.Proof.Pending
import Snapchain.Proof.Tables

/-!
# What a shard store holds

A shard store written only by `put_shard_chunk` holds one chunk per block number: the
last one put there. `ChunkMap` is that content: bindings of block numbers to chunks in
ascending order of block numbers, each chunk carrying its own block number, and
`ChunkMap.put` is `put_shard_chunk` on it. A database denotes a map (`Denotes`) when its
entries are the map's bindings, each block number written as its `make_shard_key` and
each chunk encoded.

* `putShardChunk_denotes`: on a database that denotes a map, `put_shard_chunk` fails as
  the map's put does, and otherwise leaves a database that denotes the map after the put.
* `shard_store_refines_chunk_map`: when decoding undoes encoding, after any sequence of
  puts into an empty store, the database denotes the map of the same puts, and
  `get_shard_chunks`, `get_last_shard_chunk` and `max_block_number` return what the map
  says: the chunks of the block range in order, the chunk of the largest block number,
  and that number (0 for an empty store).
* `getShardChunks_last_put`: reading one block number gives the last chunk put there.
* `getShardChunks_split`: for every database, reading the block range from `a` to
  `stop` is reading it from `a` to `b`, then from `b` to `stop`.
* `getLastShardChunk_eq_last_scan`: for every database, the reverse lookup of
  `get_last_shard_chunk` returns the last chunk of the forward scan from block 0.

Keys of other stores are what breaks the refinement: an unbounded scan and the last-chunk
lookup read them (see `Proof/Store.lean`), and a store written only by puts has none.
-/

namespace Snapchain

/-! ## The map -/

section Insert

variable {n : UInt64} {c : ShardChunk}

/-- Set the chunk of block number `n`, keeping the order. -/
def insertAt (n : UInt64) (c : ShardChunk) :
    List (UInt64 × ShardChunk) → List (UInt64 × ShardChunk)
  | [] => [(n, c)]
  | e :: rest =>
    if n < e.1 then (n, c) :: e :: rest
    else if n = e.1 then (n, c) :: rest
    else e :: insertAt n c rest

theorem mem_insertAt {e : UInt64 × ShardChunk} :
    ∀ {l : List (UInt64 × ShardChunk)}, e ∈ insertAt n c l → e = (n, c) ∨ e ∈ l
  | [], h => by simpa [insertAt] using h
  | x :: rest, h => by
    unfold insertAt at h
    split_ifs at h
    · simpa using h
    · simp only [List.mem_cons] at h ⊢; tauto
    · rcases List.mem_cons.1 h with h | h
      · exact .inr (h ▸ List.mem_cons_self _ _)
      · exact (mem_insertAt h).imp_right (List.mem_cons_of_mem _)

theorem insertAt_sorted :
    ∀ {l : List (UInt64 × ShardChunk)}, l.Pairwise (·.1 < ·.1) →
      (insertAt n c l).Pairwise (·.1 < ·.1)
  | [], _ => List.pairwise_singleton _ _
  | x :: rest, h => by
    rw [List.pairwise_cons] at h
    unfold insertAt
    split_ifs with h1 h2
    · refine List.Pairwise.cons (fun y hy => ?_) (List.Pairwise.cons h.1 h.2)
      rcases List.mem_cons.1 hy with rfl | hy
      · exact h1
      · exact UInt64.lt_trans h1 (h.1 y hy)
    · exact List.Pairwise.cons (fun y hy => h2 ▸ h.1 y hy) h.2
    · refine List.Pairwise.cons (fun y hy => ?_) (insertAt_sorted h.2)
      rcases mem_insertAt hy with rfl | hy
      · exact UInt64.lt_def.2 (BitVec.lt_of_le_ne (UInt64.not_lt.1 h1)
          fun h => h2 (UInt64.eq_of_toBitVec_eq h).symm)
      · exact h.1 y hy

theorem find?_insertAt (k : UInt64) : ∀ l : List (UInt64 × ShardChunk),
    (insertAt n c l).find? (·.1 = k) = if n = k then some (n, c) else l.find? (·.1 = k)
  | [] => by by_cases h : n = k <;> simp [insertAt, h]
  | e :: rest => by
    unfold insertAt
    by_cases h1 : n < e.1
    · rw [if_pos h1]; by_cases h : n = k <;> simp [h]
    by_cases h2 : n = e.1
    · rw [if_neg h1, if_pos h2]; subst h2; by_cases h : e.1 = k <;> simp [h]
    rw [if_neg h1, if_neg h2]
    by_cases he : e.1 = k
    · subst he; simp [h2]
    · simp [he, find?_insertAt k rest]

/-- In a list with one binding per key, the bindings of a key are the one `find?` gives. -/
theorem filter_key_eq (k : UInt64) :
    ∀ {l : List (UInt64 × ShardChunk)}, l.Pairwise (·.1 < ·.1) →
      l.filter (·.1 = k) = (l.find? (·.1 = k)).toList
  | [], _ => rfl
  | e :: rest, h => by
    rw [List.pairwise_cons] at h
    by_cases he : e.1 = k
    · have hrest : rest.filter (·.1 = k) = [] := List.filter_eq_nil_iff.2 fun x hx hxk =>
        UInt64.lt_irrefl k (by simpa [he, of_decide_eq_true hxk] using h.1 x hx)
      simp [he, hrest]
    · simp [he, filter_key_eq k h.2]

end Insert

/-- Without overflow, the block numbers from `k` and below `k + 1` are `k` alone. -/
theorem le_lt_succ_iff {k : UInt64} (hk : k < k + 1) (n : UInt64) : k ≤ n ∧ n < k + 1 ↔ n = k := by
  have e : (k + 1).toNat = (k.toNat + 1) % 18446744073709551616 := rfl
  change k.toNat < (k + 1).toNat at hk
  change k.toNat ≤ n.toNat ∧ n.toNat < (k + 1).toNat ↔ n = k
  rw [e] at *
  exact ⟨fun h => UInt64.toNat.inj (by omega), fun h => by subst h; omega⟩

/-- What a shard store holds: the chunk of each block number that has one, in ascending
order of block numbers, each chunk with its own block number. -/
structure ChunkMap where
  entries : List (UInt64 × ShardChunk)
  sorted : entries.Pairwise (·.1 < ·.1)
  keyed : ∀ e ∈ entries, BlockProposer.chunkBlockNumber e.2 = some e.1

namespace ChunkMap

def empty : ChunkMap := ⟨[], .nil, nofun⟩

/-- `put_shard_chunk` on the map: a chunk without a header, or whose header has no
height, is refused; any other becomes the chunk of its block number. -/
def put (m : ChunkMap) (c : ShardChunk) : Except ShardStorageError ChunkMap :=
  match hh : c.header with
  | none => .error .shardMissingHeader
  | some header =>
    match hg : header.height with
    | none => .error .shardMissingHeight
    | some height =>
      .ok ⟨insertAt height.blockNumber c m.entries, insertAt_sorted m.sorted, fun e he => by
        rcases mem_insertAt he with rfl | he
        · exact BlockProposer.chunkBlockNumber_eq hh hg
        · exact m.keyed e he⟩

/-- Puts in order; a refused one changes nothing. -/
def putAll (m : ChunkMap) (cs : List ShardChunk) : ChunkMap :=
  cs.foldl (fun m c => (m.put c).toOption.getD m) m

/-- The chunks of the block numbers from `start` (included) to `stop` (excluded; no
bound without one), in order. -/
def range (m : ChunkMap) (start : UInt64) (stop : Option UInt64) : List ShardChunk :=
  (m.entries.filter fun e => decide (start ≤ e.1) && stop.all (decide <| e.1 < ·)).map Prod.snd

/-- The chunk of block number `k`. -/
def find (m : ChunkMap) (k : UInt64) : Option ShardChunk := (m.entries.find? (·.1 = k)).map Prod.snd

/-- The chunk of the largest block number. -/
def last (m : ChunkMap) : Option ShardChunk := m.entries.getLast?.map Prod.snd

/-- The largest block number, 0 when there is none. -/
def maxBlockNumber (m : ChunkMap) : UInt64 := (m.entries.getLast?.map Prod.fst).getD 0

open BlockProposer (chunkBlockNumber)

/-- A put sets the chunk of the chunk's block number and no other; a refused one, of a
chunk without a block number, sets none. -/
theorem find_put (m : ChunkMap) (c : ShardChunk) (k : UInt64) :
    ((m.put c).toOption.getD m).find k = if chunkBlockNumber c = some k then some c else m.find k := by
  rcases c with ⟨_ | ⟨p, t, _ | height, r⟩, hash, txs, votes⟩
  · rfl
  · rfl
  · by_cases h : height.blockNumber = k <;> simp [put, find, find?_insertAt, chunkBlockNumber, Except.toOption, h]

/-- **The last put wins**: after the puts `cs`, the chunk of block number `k` is the last
chunk of `cs` with that block number, or the one before the puts when there is none. -/
theorem find_putAll (k : UInt64) :
    ∀ (cs : List ShardChunk) (m : ChunkMap),
      (m.putAll cs).find k = (cs.filter (chunkBlockNumber · = some k)).getLast?.or (m.find k)
  | [], _ => rfl
  | c :: cs, m => by
    rw [putAll, List.foldl_cons, ← putAll, find_putAll k cs, find_put]
    by_cases hc : chunkBlockNumber c = some k
    · simp only [hc, List.filter_cons_of_pos, decide_True, List.getLast?_cons, if_true]
      cases (cs.filter (chunkBlockNumber · = some k)).getLast? <;> rfl
    · simp [hc]

/-- Reading the single block number `k` reads its chunk. -/
theorem range_succ (m : ChunkMap) {k : UInt64} (hk : k < k + 1) :
    m.range k (some (k + 1)) = (m.find k).toList := by
  rw [range, List.filter_congr (q := fun e => decide (e.1 = k)) fun e _ => by
      simp only [Option.all, ← Bool.decide_and, le_lt_succ_iff hk e.1],
    filter_key_eq k m.sorted, find]
  cases m.entries.find? (·.1 = k) <;> rfl

end ChunkMap

/-! ## The database a map denotes -/

variable {ν : Type} {E : StoreEnv ν}

/-- A binding as `put_shard_chunk` writes it: the chunk, encoded, under the
`make_shard_key` of its block number. -/
def encodeEntry (E : StoreEnv ν) (e : UInt64 × ShardChunk) : Bytes × ν :=
  (makeShardKey E e.1, E.encode e.2)

/-- The database holds exactly the bindings of the map. -/
def Denotes (E : StoreEnv ν) (db : RocksDB ν) (m : ChunkMap) : Prop :=
  db.entries = m.entries.map (encodeEntry E)

/-- Inserting an encoded binding is encoding the inserted binding: `make_shard_key` keeps
the order of block numbers and tells them apart. -/
theorem insertEntry_encode (n : UInt64) (c : ShardChunk) :
    ∀ l : List (UInt64 × ShardChunk), insertEntry (makeShardKey E n) (E.encode c)
      (l.map (encodeEntry E)) = (insertAt n c l).map (encodeEntry E)
  | [] => rfl
  | e :: rest => by
    have hne : n ≠ e.1 → makeShardKey E n ≠ makeShardKey E e.1 := fun h h' => h (makeShardKey_inj h')
    by_cases h1 : n < e.1
    · simp [insertEntry, insertAt, encodeEntry, makeShardKey_lt_iff, h1]
    · by_cases h2 : n = e.1
      · subst h2
        simp [insertEntry, insertAt, encodeEntry, makeShardKey_lt_iff]
      · simp [insertEntry, insertAt, encodeEntry, makeShardKey_lt_iff, h1, h2, hne h2,
          insertEntry_encode n c rest]

/-- **`put_shard_chunk` refines the map's put.** On a database that denotes `m`, it fails
with the map's error, or leaves a database that denotes the map after the put. -/
theorem putShardChunk_denotes {db : RocksDB ν} {m : ChunkMap} (h : Denotes E db m)
    (c : ShardChunk) :
    (putShardChunk E db c).map (·.entries) = (m.put c).map (·.entries.map (encodeEntry E)) := by
  rcases c with ⟨_ | ⟨p, t, _ | height, r⟩, hash, txs, votes⟩
  · rfl
  · rfl
  · simp only [putShardChunk, ChunkMap.put, RocksDB.put, Except.map]
    rw [h]
    exact congrArg Except.ok (insertEntry_encode _ _ _)

theorem putShardChunks_denotes :
    ∀ (cs : List ShardChunk) {s : ShardStore ν} {m : ChunkMap}, Denotes E s.db m →
      Denotes E (s.putShardChunks E cs).db (m.putAll cs)
  | [], _, _, h => h
  | c :: cs, s, m, h => by
    have hput := putShardChunk_denotes h c
    refine putShardChunks_denotes cs (s := (s.putShardChunk E c).toOption.getD s)
      (m := (m.put c).toOption.getD m) ?_
    unfold ShardStore.putShardChunk
    cases hm : m.put c <;> cases hp : putShardChunk E s.db c <;> rw [hm, hp] at hput
    · exact h
    · cases hput
    · cases hput
    · exact Except.ok.inj hput

/-! ## Reads -/

theorem inBounds_makeShardKey (start n : UInt64) (stop : Option UInt64) :
    inBounds (some (makeShardKey E start)) (stop.map (makeShardKey E)) (makeShardKey E n) =
      (decide (start ≤ n) && stop.all (decide <| n < ·)) := by
  cases stop <;> simp [inBounds, makeShardKey_lt_iff, ← UInt64.not_lt]

theorem rangeScan_denotes {db : RocksDB ν} {m : ChunkMap} (h : Denotes E db m) (start : UInt64)
    (stop : Option UInt64) :
    rangeScan E db start stop = (m.entries.filter fun e =>
      decide (start ≤ e.1) && stop.all (decide <| e.1 < ·)).map (encodeEntry E) := by
  rw [rangeScan, h, List.filter_map]
  congr 2
  funext e
  exact inBounds_makeShardKey start e.1 stop

/-- With nothing from `make_shard_key(0)` on, there is no last chunk. -/
theorem getLastShardChunk_of_nil {db : RocksDB ν} (h : rangeScan E db 0 none = []) :
    getLastShardChunk E db = .ok none := by
  rw [getLastShardChunk, getShardPageByPrefix_eq, visit_lastChunk, h]
  rfl

section Decode

variable (hE : ∀ c, E.decode (E.encode c) = some c)
include hE

theorem mapM_decodeValue_encode :
    ∀ l : List (UInt64 × ShardChunk),
      (l.map (encodeEntry E)).mapM (decodeValue E ·.2) = .ok (l.map Prod.snd)
  | [] => rfl
  | e :: l => by
    rw [List.map_cons, encodeEntry, mapM_decodeValue_some (hE e.2), mapM_decodeValue_encode l]
    rfl

theorem getShardChunks_denotes {s : ShardStore ν} {m : ChunkMap} (h : Denotes E s.db m)
    (start : UInt64) (stop : Option UInt64) :
    s.getShardChunks E start stop = some (.ok (m.range start stop)) := by
  rw [getShardChunks_eq_loop, map_nil_append, scanChunks, rangeScan_denotes h,
    mapM_decodeValue_encode hE]
  rfl

theorem getLastShardChunk_denotes {db : RocksDB ν} {m : ChunkMap} (h : Denotes E db m) :
    getLastShardChunk E db = .ok m.last := by
  have hall : rangeScan E db 0 none = m.entries.map (encodeEntry E) := by
    rw [rangeScan_denotes h, List.filter_eq_self.2 (fun e _ => by simp [UInt64.le_def, BitVec.le_def])]
  cases hl : m.entries.getLast? with
  | none =>
    rw [List.getLast?_eq_none_iff.1 hl] at hall
    rw [getLastShardChunk_of_nil hall, ChunkMap.last, hl]
    rfl
  | some e =>
    rw [getLastShardChunk_of_getLast? (e := encodeEntry E e) (by rw [hall, List.getLast?_map, hl]; rfl)]
    simp [decodeValue, encodeEntry, hE e.2, ChunkMap.last, hl, Except.map, Except.mapError]

theorem maxBlockNumber_denotes {s : ShardStore ν} {m : ChunkMap} (h : Denotes E s.db m) :
    s.maxBlockNumber E = .ok m.maxBlockNumber := by
  have hlast := getLastShardChunk_denotes hE h
  cases hl : m.entries.getLast? with
  | none =>
    simp only [ChunkMap.last, hl, Option.map_none] at hlast
    simp [ShardStore.maxBlockNumber, getCurrentHeight, hlast, ChunkMap.maxBlockNumber, hl]
  | some e =>
    simp only [ChunkMap.last, hl, Option.map_some] at hlast
    rw [maxBlockNumber_of_last hlast]
    have hk := m.keyed e (List.mem_of_mem_getLast? (Option.mem_def.2 hl))
    simp only [BlockProposer.chunkBlockNumber] at hk
    simp [ChunkMap.maxBlockNumber, hl, Option.map_bind, hk]

end Decode

/-- The empty store. -/
def ShardStore.empty : ShardStore ν := ⟨⟨[], .nil⟩⟩

/-- **A store written by puts reads as the map of what was put.** When decoding undoes
encoding, after any sequence of `put_shard_chunk` calls on an empty store, its database
holds exactly the bindings of the map of the same puts, one key per block number with the
chunk last put there, and `get_shard_chunks(start, stop)` returns that map's chunks of the
block numbers from `start` (and below `stop`, if any) in ascending order,
`get_last_shard_chunk` the chunk of the largest block number, and `max_block_number` that
block number, 0 when nothing was put. -/
theorem shard_store_refines_chunk_map (hE : ∀ c, E.decode (E.encode c) = some c)
    (cs : List ShardChunk) (start : UInt64) (stop : Option UInt64) :
    (ShardStore.empty.putShardChunks E cs).db.entries =
        (ChunkMap.empty.putAll cs).entries.map (encodeEntry E) ∧
      (ShardStore.empty.putShardChunks E cs).getShardChunks E start stop =
        some (.ok ((ChunkMap.empty.putAll cs).range start stop)) ∧
      (ShardStore.empty.putShardChunks E cs).getLastShardChunk E =
        .ok (ChunkMap.empty.putAll cs).last ∧
      (ShardStore.empty.putShardChunks E cs).maxBlockNumber E =
        .ok (ChunkMap.empty.putAll cs).maxBlockNumber := by
  have h : Denotes E (ShardStore.empty.putShardChunks E cs).db (ChunkMap.empty.putAll cs) :=
    putShardChunks_denotes cs rfl
  exact ⟨h, getShardChunks_denotes hE h start stop, getLastShardChunk_denotes hE h,
    maxBlockNumber_denotes hE h⟩

theorem shard_store_refines_chunk_map_plain :
    (∀ c, StoreEnv.plain.decode (StoreEnv.plain.encode c) = some c) ∧
    (ShardStore.empty.putShardChunks StoreEnv.plain [chunkAt 1 2, chunkAt 1 1]).db.entries =
        (ChunkMap.empty.putAll [chunkAt 1 2, chunkAt 1 1]).entries.map
          (encodeEntry StoreEnv.plain) ∧
      (ShardStore.empty.putShardChunks StoreEnv.plain [chunkAt 1 2, chunkAt 1 1]).getShardChunks
          StoreEnv.plain 0 none =
        some (.ok ((ChunkMap.empty.putAll [chunkAt 1 2, chunkAt 1 1]).range 0 none)) ∧
      (ShardStore.empty.putShardChunks StoreEnv.plain [chunkAt 1 2, chunkAt 1 1]).getLastShardChunk
          StoreEnv.plain = .ok (ChunkMap.empty.putAll [chunkAt 1 2, chunkAt 1 1]).last ∧
      (ShardStore.empty.putShardChunks StoreEnv.plain [chunkAt 1 2, chunkAt 1 1]).maxBlockNumber
          StoreEnv.plain = .ok (ChunkMap.empty.putAll [chunkAt 1 2, chunkAt 1 1]).maxBlockNumber :=
  ⟨fun _ => rfl, shard_store_refines_chunk_map (fun _ => rfl) _ 0 none⟩

/-- **The last put wins.** When decoding undoes encoding, after any sequence of
`put_shard_chunk` calls on an empty store, reading the single block number `k`
(`get_shard_chunks(k, k + 1)`, with `k + 1` not wrapping around) gives the last chunk put
with that block number, or nothing when none was. -/
theorem getShardChunks_last_put (hE : ∀ c, E.decode (E.encode c) = some c)
    (cs : List ShardChunk) {k : UInt64} (hk : k < k + 1) :
    (ShardStore.empty.putShardChunks E cs).getShardChunks E k (some (k + 1)) =
      some (.ok (cs.filter (BlockProposer.chunkBlockNumber · = some k)).getLast?.toList) := by
  rw [getShardChunks_denotes hE (putShardChunks_denotes (s := .empty) (m := .empty) cs rfl),
    ChunkMap.range_succ _ hk,
    ChunkMap.find_putAll, show ChunkMap.empty.find k = none from rfl, Option.or_none]

theorem getShardChunks_last_put_plain :
    (∀ c, StoreEnv.plain.decode (StoreEnv.plain.encode c) = some c) ∧ (1 : UInt64) < 1 + 1 ∧
    (ShardStore.empty.putShardChunks StoreEnv.plain
        [chunkAt 1 1, chunkAt 1 2, chunkAt 2 1]).getShardChunks StoreEnv.plain 1 (some (1 + 1)) =
      some (.ok ([chunkAt 1 1, chunkAt 1 2, chunkAt 2 1].filter
        (BlockProposer.chunkBlockNumber · = some 1)).getLast?.toList) :=
  ⟨fun _ => rfl, by decide, getShardChunks_last_put (fun _ => rfl) _ (by decide)⟩

/-! ## Consecutive ranges -/

/-- Entries in key order between `A` and `C` are those between `A` and `B`, then those
between `B` and `C`, for `A ≤ B ≤ C`. -/
theorem filter_inBounds_split {A B : Bytes} {C : Option Bytes} (hAB : ¬ keyLt B A)
    (hBC : ∀ c, C = some c → ¬ keyLt c B) :
    ∀ {l : List (Bytes × ν)}, KeySorted l →
      l.filter (fun e => inBounds (some A) C e.1) =
        l.filter (fun e => inBounds (some A) (some B) e.1) ++
          l.filter (fun e => inBounds (some B) C e.1)
  | [], _ => rfl
  | e :: rest, h => by
    rw [KeySorted, List.pairwise_cons] at h
    have ih := filter_inBounds_split hAB hBC h.2
    by_cases hB : keyLt e.1 B
    · have hC : C.all (fun c => decide (keyLt e.1 c)) = true := by
        cases C with
        | none => rfl
        | some c => simpa using lt_of_lt_of_le hB (not_lt.1 (hBC c rfl))
      have h1 : inBounds (some A) (some B) e.1 = !decide (keyLt e.1 A) := by simp [inBounds, hB]
      have h2 : inBounds (some B) C e.1 = false := by simp [inBounds, hB]
      have h3 : inBounds (some A) C e.1 = !decide (keyLt e.1 A) := by simp [inBounds, hC]
      simp only [List.filter_cons, h1, h2, h3, ih]
      by_cases hA : keyLt e.1 A <;> simp [hA]
    · have hA : ¬ keyLt e.1 A := fun hA => hB (lt_of_lt_of_le hA (not_lt.1 hAB))
      have h1 : inBounds (some A) (some B) e.1 = false := by simp [inBounds, hB]
      have h3 : inBounds (some A) C e.1 = inBounds (some B) C e.1 := by simp [inBounds, hA, hB]
      have hnil : rest.filter (fun e => inBounds (some A) (some B) e.1) = [] :=
        List.filter_eq_nil_iff.2 fun x hx hxB => by
          simp only [inBounds, Option.all_some, Bool.and_eq_true, decide_eq_true_eq] at hxB
          exact hB (keyLt_trans (h.1 x hx) hxB.2)
      simp only [List.filter_cons, h1, h3, ih, hnil]
      rfl

theorem rangeScan_split (db : RocksDB ν) {a b : UInt64} {stop : Option UInt64} (hab : a ≤ b)
    (hb : ∀ c, stop = some c → b ≤ c) :
    rangeScan E db a stop = rangeScan E db a (some b) ++ rangeScan E db b stop :=
  filter_inBounds_split (by rw [makeShardKey_lt_iff]; exact UInt64.not_lt.2 hab)
    (fun c hc => by
      obtain ⟨c, rfl, rfl⟩ := Option.map_eq_some'.1 hc
      rw [makeShardKey_lt_iff]; exact UInt64.not_lt.2 (hb c rfl)) db.sorted

/-- **Reads of consecutive block ranges compose.** For every database and block numbers
`a ≤ b` (and `b ≤ stop`), `get_shard_chunks(a, stop)` succeeds exactly when
`get_shard_chunks(a, Some(b))` and `get_shard_chunks(b, stop)` both do, and it returns
what the first returns followed by what the second returns: no chunk is lost or read
twice at the boundary. -/
theorem getShardChunks_split (s : ShardStore ν) {a b : UInt64} {stop : Option UInt64}
    (hab : a ≤ b) (hb : ∀ c, stop = some c → b ≤ c) (zs : List ShardChunk) :
    s.getShardChunks E a stop = some (.ok zs) ↔
      ∃ xs ys, s.getShardChunks E a (some b) = some (.ok xs) ∧
        s.getShardChunks E b stop = some (.ok ys) ∧ zs = xs ++ ys := by
  simp only [getShardChunks_eq_loop, map_nil_append, scanChunks, rangeScan_split s.db hab hb,
    List.mapM_append, Option.some.injEq]
  cases (rangeScan E s.db a (some b)).mapM (decodeValue E ·.2) <;>
    cases (rangeScan E s.db b stop).mapM (decodeValue E ·.2) <;>
    simp [Except.mapError, bind, Except.bind, pure, Except.pure, eq_comm]

/-- A store holding the chunks of blocks 1 to 3, put out of order. -/
def threeChunkStore : ShardStore ShardChunk :=
  ShardStore.empty.putShardChunks StoreEnv.plain [chunkAt 1 3, chunkAt 1 1, chunkAt 1 2]

theorem getShardChunks_split_three :
    (1 : UInt64) ≤ 2 ∧ (∀ c, some (4 : UInt64) = some c → 2 ≤ c) ∧
    (threeChunkStore.getShardChunks StoreEnv.plain 1 (some 4) =
        some (.ok [chunkAt 1 1, chunkAt 1 2, chunkAt 1 3]) ↔
      ∃ xs ys, threeChunkStore.getShardChunks StoreEnv.plain 1 (some 2) = some (.ok xs) ∧
        threeChunkStore.getShardChunks StoreEnv.plain 2 (some 4) = some (.ok ys) ∧
        [chunkAt 1 1, chunkAt 1 2, chunkAt 1 3] = xs ++ ys) :=
  ⟨by decide, fun _ h => Option.some.inj h ▸ by decide,
    getShardChunks_split _ (by decide) (fun _ h => Option.some.inj h ▸ by decide) _⟩

/-! ## The last chunk and the whole scan -/

/-- **The reverse lookup agrees with the forward scan.** For every database on which
`get_shard_chunks(0, None)` reads the chunks `cs`, `get_last_shard_chunk` (a reverse page
of one entry) returns the last of them, and `max_block_number` that chunk's block number
(0 when there is none). -/
theorem getLastShardChunk_eq_last_scan (s : ShardStore ν) {cs : List ShardChunk}
    (h : s.getShardChunks E 0 none = some (.ok cs)) :
    s.getLastShardChunk E = .ok cs.getLast? ∧
      s.maxBlockNumber E = .ok ((cs.getLast?.bind BlockProposer.chunkBlockNumber).getD 0) := by
  rw [getShardChunks_eq_loop, map_nil_append, scanChunks, Option.some.injEq] at h
  have hcs : (rangeScan E s.db 0 none).mapM (decodeValue E ·.2) = .ok cs := by
    cases hm : (rangeScan E s.db 0 none).mapM (decodeValue E ·.2) <;> rw [hm] at h <;> cases h
    rfl
  have hmap := congrArg List.getLast? (mapM_decodeValue_ok hcs)
  rw [List.getLast?_map, List.getLast?_map] at hmap
  have hlast : s.getLastShardChunk E = .ok cs.getLast? := by
    cases hl : (rangeScan E s.db 0 none).getLast? with
    | none =>
      rw [hl, Option.map_none', Option.map_eq_none'] at hmap
      rw [hmap]
      exact getLastShardChunk_of_nil (List.getLast?_eq_none_iff.1 hl)
    | some e =>
      rw [hl, Option.map_some'] at hmap
      obtain ⟨c, hc, hce⟩ := Option.map_eq_some'.1 hmap
      rw [ShardStore.getLastShardChunk, getLastShardChunk_of_getLast? hl, hc]
      simp [decodeValue, ← hce, Except.map, Except.mapError]
  refine ⟨hlast, ?_⟩
  cases hc : cs.getLast? with
  | none =>
    rw [hc, ShardStore.getLastShardChunk] at hlast
    simp only [ShardStore.maxBlockNumber, getCurrentHeight, hlast, ok_bind]
    rfl
  | some c =>
    rw [hc] at hlast
    rw [maxBlockNumber_of_last hlast]
    simp [BlockProposer.chunkBlockNumber, Option.map_bind]

theorem getLastShardChunk_eq_last_scan_three :
    threeChunkStore.getShardChunks StoreEnv.plain 0 none =
        some (.ok [chunkAt 1 1, chunkAt 1 2, chunkAt 1 3]) ∧
      threeChunkStore.getLastShardChunk StoreEnv.plain =
        .ok [chunkAt 1 1, chunkAt 1 2, chunkAt 1 3].getLast? ∧
      threeChunkStore.maxBlockNumber StoreEnv.plain =
        .ok (([chunkAt 1 1, chunkAt 1 2, chunkAt 1 3].getLast?.bind
          BlockProposer.chunkBlockNumber).getD 0) :=
  have h : threeChunkStore.getShardChunks StoreEnv.plain 0 none =
      some (.ok [chunkAt 1 1, chunkAt 1 2, chunkAt 1 3]) := by decide
  ⟨h, getLastShardChunk_eq_last_scan _ h⟩

end Snapchain
