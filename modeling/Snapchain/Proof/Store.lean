import Snapchain.Proof.Tables
import Snapchain.Proof.Keys

/-!
# Range scans of the shard store

`get_shard_chunks` reads a range one page of a hundred chunks at a time, each page
resuming strictly past the key the page before it stopped at.

* `shard_page_first_entries`: one page of `get_shard_page_by_prefix` holds the first
  `p` values the iterator visits, decoded, and the key of the last as its token when it
  is full. A page size of 0 reads as 1, and an empty key gives no token.
* `getLastShardChunk_eq`: `get_last_shard_chunk` decodes the value under the largest key
  from `make_shard_key(0)` on and never fails with `TooManyShardsInResult`.
* `getShardChunks_eq_scan`: the pages together are one unpaged scan. For every database,
  `get_shard_chunks(start, stop)` returns the values of the keys from
  `make_shard_key(start)` up to `make_shard_key(stop)`, decoded, in key order, each once;
  with no stop, of every key from `make_shard_key(start)` on. The first value that does
  not decode fails the whole call.
* `getShardChunks_block_range`: with a stop, and shard keys nine bytes long, that range
  is exactly the entries of the block numbers in `[start, stop)`.
* `putShardChunk_spec`: a put fails, naming what is missing, exactly when the chunk has
  no header or no height, and otherwise writes one key, `make_shard_key(block_number)`.
* `unbounded_scan_reads_foreign_keys`: with no stop, the scan runs past the keys of the
  shard store, into the keys of stores whose prefix byte is larger, and returns their
  values decoded as chunks.
* `last_chunk_reads_foreign_keys`: `get_last_shard_chunk` scans backwards from the end of
  the whole database. Puts write shard keys only, so when the largest key is another
  store's, it stays what the scan finds after any sequence of puts, and
  `max_block_number` reads that value's block number.
-/

namespace Snapchain

variable {ν : Type} (E : StoreEnv ν)

/-! ## The unpaged scan -/

/-- `ShardChunk::decode` on a stored value. -/
def decodeValue (v : ν) : Except RocksdbError ShardChunk :=
  match E.decode v with
  | some c => .ok c
  | none => .error .decodeError

/-- The entries a range read of the shard store visits: from `make_shard_key(start)`
(included) to `make_shard_key(stop)` (excluded, no bound without a stop), in key order. -/
def rangeScan (db : RocksDB ν) (start : UInt64) (stop : Option UInt64) : List (Bytes × ν) :=
  db.entries.filter fun e => inBounds (some (makeShardKey E start)) (stop.map (makeShardKey E)) e.1

/-- What an unpaged read of the range returns: the values decoded, or the first decode
error. -/
def scanChunks (db : RocksDB ν) (start : UInt64) (stop : Option UInt64) :
    Except ShardStorageError (List ShardChunk) :=
  ((rangeScan E db start stop).mapM (decodeValue E ·.2)).mapError .rocksdbError

variable {E}

theorem rangeScan_sorted (db : RocksDB ν) (start : UInt64) (stop : Option UInt64) :
    KeySorted (rangeScan E db start stop) :=
  db.sorted.filter _

/-- No key of a range is empty: each is at least the start key, which is not. -/
theorem rangeScan_key_ne_nil {db : RocksDB ν} {start : UInt64} {stop : Option UInt64}
    {e : Bytes × ν} (he : e ∈ rangeScan E db start stop) : e.1 ≠ [] := by
  rintro hk
  simp only [rangeScan, List.mem_filter, inBounds, Option.all_some, Bool.and_eq_true,
    Bool.not_eq_true', decide_eq_false_iff_not, hk] at he
  exact he.2.1 (by
    simp only [keyLt, makeShardKey, List.map_cons]
    exact List.nil_lt_cons _ _)

/-- Past the key of an entry of a sorted list are exactly the entries after it. -/
theorem filter_past_of_sorted {pre post : List (Bytes × ν)} {e : Bytes × ν}
    (h : KeySorted (pre ++ e :: post)) :
    (pre ++ e :: post).filter (fun x => pastToken false (some e.1) x.1) = post := by
  simp only [KeySorted, List.pairwise_append, List.pairwise_cons, List.mem_cons] at h
  obtain ⟨-, ⟨he, -⟩, hpre⟩ := h
  rw [List.filter_append, List.filter_cons, List.filter_eq_nil_iff.2, List.filter_eq_self.2]
  · simp [pastToken, keyLt_irrefl]
  · intro x hx; simpa [pastToken] using he x hx
  · intro x hx
    simpa [pastToken] using keyLt_asymm (hpre x hx e (.inl rfl))

/-! ## One page -/

section Loop

variable {σ : Type} {f : σ → Bytes → ν → Except RocksdbError (σ × Bool)} {s s' : σ} {k : Bytes}
  {v : ν} {rest : List (Bytes × ν)}

theorem forEachEntry_continue (h : f s k v = .ok (s', false)) :
    forEachEntry f ((k, v) :: rest) s = forEachEntry f rest s' := by
  simp [forEachEntry, h]

theorem forEachEntry_stop (h : f s k v = .ok (s', true)) :
    forEachEntry f ((k, v) :: rest) s = .ok s' := by
  simp [forEachEntry, h]

theorem forEachEntry_error {e : RocksdbError} (h : f s k v = .error e) :
    forEachEntry f ((k, v) :: rest) s = .error e := by
  simp [forEachEntry, h]

end Loop

theorem pageCallback_none {n : Nat} {acc : List ShardChunk × Bytes} {k : Bytes} {v : ν}
    (h : E.decode v = none) : pageCallback E n acc k v = .error .decodeError := by
  simp [pageCallback, h]

theorem pageCallback_some {n : Nat} {acc : List ShardChunk × Bytes} {k : Bytes} {v : ν}
    {c : ShardChunk} (h : E.decode v = some c) :
    pageCallback E n acc k v =
      if n ≤ (acc.1 ++ [c]).length then .ok ((acc.1 ++ [c], k), true)
      else .ok ((acc.1 ++ [c], acc.2), false) := by
  simp [pageCallback, h]

theorem mapM_decodeValue_none {k : Bytes} {v : ν} (h : E.decode v = none)
    (R : List (Bytes × ν)) : ((k, v) :: R).mapM (decodeValue E ·.2) = .error .decodeError := by
  simp only [List.mapM_cons, decodeValue, h]
  rfl

theorem mapM_decodeValue_some {k : Bytes} {v : ν} {c : ShardChunk} (h : E.decode v = some c)
    (R : List (Bytes × ν)) :
    ((k, v) :: R).mapM (decodeValue E ·.2) = (R.mapM (decodeValue E ·.2)).map (c :: ·) := by
  simp only [List.mapM_cons, decodeValue, h, ok_bind]
  cases R.mapM (decodeValue E ·.2) <;> rfl

/-- A page that the entries do not fill holds all of them, decoded. -/
theorem forEachEntry_short {n : Nat} :
    ∀ (R : List (Bytes × ν)) (acc : List ShardChunk), acc.length + R.length < n →
      forEachEntry (pageCallback E n) R (acc, []) =
        (R.mapM (decodeValue E ·.2)).map fun cs => (acc ++ cs, [])
  | [], acc, _ => by
    rw [List.mapM_nil]
    show Except.ok (acc, []) = Except.ok (acc ++ [], [])
    rw [List.append_nil]
  | (k, v) :: R, acc, hn => by
    simp only [List.length_cons] at hn
    cases hc : E.decode v with
    | none => rw [forEachEntry_error (pageCallback_none hc), mapM_decodeValue_none hc]; rfl
    | some c =>
      rw [forEachEntry_continue (by rw [pageCallback_some hc, if_neg (by simp; omega)]),
        forEachEntry_short R _ (by simp; omega), mapM_decodeValue_some hc]
      cases R.mapM (decodeValue E ·.2) <;> simp [Except.map]

/-- A page that the entries fill holds the first `n` of them, decoded, and stops at the
key of the last. -/
theorem forEachEntry_full {n : Nat} (R : List (Bytes × ν)) :
    ∀ (P : List (Bytes × ν)) (hP : P ≠ []) (acc : List ShardChunk), acc.length + P.length = n →
      forEachEntry (pageCallback E n) (P ++ R) (acc, []) =
        (P.mapM (decodeValue E ·.2)).map fun cs => (acc ++ cs, (P.getLast hP).1)
  | [], hP, _, _ => absurd rfl hP
  | (k, v) :: P, _, acc, hn => by
    simp only [List.length_cons, List.length_nil] at hn
    rw [List.cons_append]
    cases hc : E.decode v with
    | none => rw [forEachEntry_error (pageCallback_none hc), mapM_decodeValue_none hc]; rfl
    | some c =>
      rw [mapM_decodeValue_some hc]
      cases P with
      | nil =>
        simp only [List.length_nil] at hn
        rw [forEachEntry_stop (by rw [pageCallback_some hc, if_pos (by simp; omega)])]
        rfl
      | cons e P =>
        simp only [List.length_cons] at hn
        rw [forEachEntry_continue (by rw [pageCallback_some hc, if_neg (by simp; omega)])]
        dsimp only
        rw [forEachEntry_full R (e :: P) (List.cons_ne_nil _ _) _ (by simp; omega)]
        cases (e :: P).mapM (decodeValue E ·.2) <;> simp [Except.map]

/-- When every value decodes, the scan fails on none of them. -/
theorem mapM_decodeValue_of_decodes :
    ∀ {l : List (Bytes × ν)}, (∀ e ∈ l, (E.decode e.2).isSome) →
      l.mapM (decodeValue E ·.2) = .ok (l.filterMap (E.decode ·.2))
  | [], _ => rfl
  | (k, v) :: l, h => by
    obtain ⟨c, hc⟩ := Option.isSome_iff_exists.1 (h _ (List.mem_cons_self _ _))
    rw [mapM_decodeValue_some hc,
      mapM_decodeValue_of_decodes fun e he => h e (List.mem_cons_of_mem _ he)]
    simp [Except.map, hc]

/-- A value that does not decode fails the scan. -/
theorem mapM_decodeValue_error :
    ∀ {l : List (Bytes × ν)}, (∃ e ∈ l, E.decode e.2 = none) →
      l.mapM (decodeValue E ·.2) = .error .decodeError
  | [], ⟨_, h, _⟩ => nomatch h
  | (k, v) :: l, ⟨e, he, hd⟩ => by
    cases hc : E.decode v with
    | none => exact mapM_decodeValue_none hc l
    | some c =>
      rcases List.mem_cons.1 he with rfl | he
      · simp [hc] at hd
      · rw [mapM_decodeValue_some hc, mapM_decodeValue_error ⟨e, he, hd⟩]
        rfl

/-- A scan that succeeds returns the values decoded, in order. -/
theorem mapM_decodeValue_ok :
    ∀ {l : List (Bytes × ν)} {cs : List ShardChunk}, l.mapM (decodeValue E ·.2) = .ok cs →
      cs.map some = l.map (E.decode ·.2)
  | [], _, h => by cases h; rfl
  | (k, v) :: l, cs, h => by
    cases hc : E.decode v with
    | none => rw [mapM_decodeValue_none hc] at h; cases h
    | some c =>
      rw [mapM_decodeValue_some hc] at h
      cases hl : l.mapM (decodeValue E ·.2) with
      | error e => rw [hl] at h; cases h
      | ok cs' =>
        rw [hl] at h
        cases h
        simp [hc, mapM_decodeValue_ok hl]

theorem mapM_decodeValue_singleton (e : Bytes × ν) :
    [e].mapM (decodeValue E ·.2) = (decodeValue E e.2).map ([·]) := by
  simp only [List.mapM_cons, List.mapM_nil]
  cases decodeValue E e.2 <;> rfl

/-- A page size of 0 reads as 1: the callback pushes a chunk before it compares. -/
theorem pageCallback_max_one (n : Nat) : pageCallback E (max n 1) = pageCallback E n := by
  cases n with
  | zero =>
    funext acc k v
    cases h : E.decode v <;> simp [pageCallback, h]
  | succ n => rw [Nat.max_eq_left (by omega)]

/-- The key a page of `q` entries out of `R` stops at: that of its `q`-th entry, or the
empty key when the entries run out first (`last_key` of `get_shard_page_by_prefix`). -/
def pageStopKey (q : Nat) (R : List (Bytes × ν)) : Bytes :=
  if q ≤ R.length then ((R.take q).getLast?.map Prod.fst).getD [] else []

/-- **One page** of `q ≥ 1` entries: the first `q` entries, decoded, and the key of the
`q`-th. -/
theorem forEachEntry_page {q : Nat} (hq : 0 < q) (R : List (Bytes × ν)) :
    forEachEntry (pageCallback E q) R ([], []) =
      ((R.take q).mapM (decodeValue E ·.2)).map fun cs => (cs, pageStopKey q R) := by
  by_cases hR : R.length < q
  · rw [List.take_of_length_le hR.le, pageStopKey, if_neg (by omega),
      forEachEntry_short R [] (by simpa using hR)]
    simp only [List.nil_append]
  · have hne : R.take q ≠ [] := List.ne_nil_of_length_pos (by simp; omega)
    conv_lhs => rw [← List.take_append_drop q R]
    rw [forEachEntry_full (R.drop q) (R.take q) hne [] (by simp; omega), pageStopKey,
      if_pos (by omega), List.getLast?_eq_getLast _ hne]
    simp only [List.nil_append, Option.map_some', Option.getD_some]

/-- With non-empty keys, a page's token is the key of its last entry exactly when it is
full. -/
theorem pageStopKey_token {q : Nat} (hq : 0 < q) {R : List (Bytes × ν)}
    (hk : ∀ e ∈ R, e.1 ≠ []) :
    (if (pageStopKey q R).length > 0 then some (pageStopKey q R) else none) =
      if q ≤ R.length then (R.take q).getLast?.map Prod.fst else none := by
  unfold pageStopKey
  by_cases h : q ≤ R.length
  · have hne : R.take q ≠ [] := List.ne_nil_of_length_pos (by simp; omega)
    have hkey := hk _ (List.mem_of_mem_take (List.getLast_mem hne))
    simp [h, List.getLast?_eq_getLast _ hne, List.length_pos.2 hkey]
  · simp [h]

/-- `get_shard_page_by_prefix` reads the first `q` entries the iterator visits, where `q`
is the page size (`PAGE_SIZE_MAX` without one), read as 1 when it is 0. -/
theorem getShardPageByPrefix_eq (db : RocksDB ν) (opts : PageOptions)
    (start stop : Option Bytes) :
    getShardPageByPrefix E db opts start stop =
      match ((db.visit start stop opts).take (max (opts.pageSize.getD E.pageSizeMax) 1)).mapM
          (decodeValue E ·.2) with
      | .error e => .error (.rocksdbError e)
      | .ok cs =>
        let lastKey :=
          pageStopKey (max (opts.pageSize.getD E.pageSizeMax) 1) (db.visit start stop opts)
        .ok ⟨cs, if lastKey.length > 0 then some lastKey else none⟩ := by
  rw [getShardPageByPrefix, RocksDB.forEachIteratorByPrefixPaged, ← pageCallback_max_one,
    forEachEntry_page (by omega)]
  cases ((db.visit start stop opts).take (max (opts.pageSize.getD E.pageSizeMax) 1)).mapM
    (decodeValue E ·.2) <;> rfl

/-- **One page of `get_shard_page_by_prefix`.** For a page size `p ≥ 1` (`PAGE_SIZE_MAX`
without one) and visited keys that are not empty: a value among the first `p` entries
the iterator visits that does not decode fails the page; otherwise the page holds the
first `min p n` values, decoded, in iteration order, and its token is the key of the
last of them exactly when it holds `p`. -/
theorem shard_page_first_entries {db : RocksDB ν} {opts : PageOptions}
    {start stop : Option Bytes} (hp : 0 < opts.pageSize.getD E.pageSizeMax)
    (hk : ∀ e ∈ db.visit start stop opts, e.1 ≠ []) :
    let R := db.visit start stop opts
    let p := opts.pageSize.getD E.pageSizeMax
    ((∃ e ∈ R.take p, E.decode e.2 = none) →
      getShardPageByPrefix E db opts start stop = .error (.rocksdbError .decodeError)) ∧
    ((∀ e ∈ R.take p, (E.decode e.2).isSome) →
      ∃ page, getShardPageByPrefix E db opts start stop = .ok page ∧
        page.shardChunks.map some = (R.take p).map (E.decode ·.2) ∧
        page.shardChunks.length = min p R.length ∧
        page.nextPageToken =
          if page.shardChunks.length = p then (R.take p).getLast?.map Prod.fst else none) := by
  dsimp only
  rw [getShardPageByPrefix_eq, Nat.max_eq_left hp]
  set p := opts.pageSize.getD E.pageSizeMax
  set R := db.visit start stop opts
  refine ⟨fun hd => by rw [mapM_decodeValue_error hd], fun hd => ?_⟩
  have hcs := mapM_decodeValue_ok (mapM_decodeValue_of_decodes hd)
  have hlen : ((R.take p).filterMap (E.decode ·.2)).length = min p R.length := by
    simpa using congrArg List.length hcs
  rw [mapM_decodeValue_of_decodes hd]
  refine ⟨_, rfl, hcs, hlen, ?_⟩
  dsimp only
  rw [pageStopKey_token hp hk, hlen]
  by_cases h : p ≤ R.length
  · simp [h, Nat.min_eq_left h]
  · simp [h, Nat.min_eq_right (Nat.le_of_not_le h), Nat.ne_of_lt (Nat.lt_of_not_le h)]

/-- A store layout for concrete runs: the shard prefix is the byte 1, and values are
the chunks themselves. -/
def StoreEnv.plain : StoreEnv ShardChunk := ⟨1, 100, id, some⟩

/-- Chunks at blocks 1, 2 and 3 under their shard keys. -/
def threeChunks : RocksDB ShardChunk :=
  ⟨[(makeShardKey StoreEnv.plain 1, chunkAt 1 1), (makeShardKey StoreEnv.plain 2, chunkAt 1 2),
    (makeShardKey StoreEnv.plain 3, chunkAt 1 3)], by decide⟩

theorem shard_page_first_entries_two_of_three :
    (0 < (some 2).getD StoreEnv.plain.pageSizeMax ∧
      ∀ e ∈ threeChunks.visit (some (makeShardKey StoreEnv.plain 0)) none ⟨some 2, none, false⟩,
        e.1 ≠ []) ∧
    let R := threeChunks.visit (some (makeShardKey StoreEnv.plain 0)) none ⟨some 2, none, false⟩
    let p := (some 2).getD StoreEnv.plain.pageSizeMax
    ((∃ e ∈ R.take p, StoreEnv.plain.decode e.2 = none) →
      getShardPageByPrefix StoreEnv.plain threeChunks ⟨some 2, none, false⟩
        (some (makeShardKey StoreEnv.plain 0)) none = .error (.rocksdbError .decodeError)) ∧
    ((∀ e ∈ R.take p, (StoreEnv.plain.decode e.2).isSome) →
      ∃ page, getShardPageByPrefix StoreEnv.plain threeChunks ⟨some 2, none, false⟩
          (some (makeShardKey StoreEnv.plain 0)) none = .ok page ∧
        page.shardChunks.map some = (R.take p).map (StoreEnv.plain.decode ·.2) ∧
        page.shardChunks.length = min p R.length ∧
        page.nextPageToken =
          if page.shardChunks.length = p then (R.take p).getLast?.map Prod.fst else none) :=
  ⟨⟨by decide, by decide⟩, @shard_page_first_entries _ StoreEnv.plain threeChunks
    ⟨some 2, none, false⟩ (some (makeShardKey StoreEnv.plain 0)) none (by decide) (by decide)⟩

/-- A page of size 0 over one entry holds that entry and its key as a token; a page of
size 1 over one entry stored under the empty key holds it and no token. -/
theorem shard_page_edge_cases :
    getShardPageByPrefix StoreEnv.plain ⟨[(makeShardKey StoreEnv.plain 1, chunkAt 1 1)], by decide⟩
        ⟨some 0, none, false⟩ (some (makeShardKey StoreEnv.plain 0)) none =
      .ok ⟨[chunkAt 1 1], some (makeShardKey StoreEnv.plain 1)⟩ ∧
    getShardPageByPrefix StoreEnv.plain ⟨[([], chunkAt 1 1)], by decide⟩ ⟨some 1, none, false⟩
        none none =
      .ok ⟨[chunkAt 1 1], none⟩ := by
  decide

/-! ## The last chunk -/

/-- The reverse scan of `get_last_shard_chunk` visits the range from `make_shard_key(0)`
on, from its end. -/
theorem visit_lastChunk (db : RocksDB ν) :
    db.visit (some (makeShardKey E 0)) none ⟨some 1, none, true⟩ =
      (rangeScan E db 0 none).reverse := by
  simp [RocksDB.visit, rangeScan, pastToken]

theorem getLastShardChunk_of_getLast? {db : RocksDB ν} {e : Bytes × ν}
    (h : (rangeScan E db 0 none).getLast? = some e) :
    getLastShardChunk E db = ((decodeValue E e.2).mapError .rocksdbError).map some := by
  obtain ⟨pre, hpre⟩ := List.getLast?_eq_some_iff.1 h
  have htake : (rangeScan E db 0 none).reverse.take 1 = [e] := by
    rw [hpre, List.reverse_append, List.take_one]
    rfl
  rw [getLastShardChunk, getShardPageByPrefix_eq, visit_lastChunk]
  dsimp only
  rw [Option.getD_some, Nat.max_self, htake, mapM_decodeValue_singleton]
  cases decodeValue E e.2 <;> rfl

/-- **`get_last_shard_chunk` reads one entry.** It decodes the value under the largest key
from `make_shard_key(0)` on, if there is one, and never fails with
`TooManyShardsInResult`. -/
theorem getLastShardChunk_eq (db : RocksDB ν) :
    getLastShardChunk E db =
      match (rangeScan E db 0 none).getLast? with
      | none => .ok none
      | some e => ((decodeValue E e.2).mapError .rocksdbError).map some := by
  cases h : (rangeScan E db 0 none).getLast? with
  | none =>
    rw [getLastShardChunk, getShardPageByPrefix_eq, visit_lastChunk,
      List.getLast?_eq_none_iff.1 h]
    rfl
  | some e => exact getLastShardChunk_of_getLast? h

/-! ## The loop of `get_shard_chunks` -/

/-- Where a page token leaves the scan: at its start, or just past an entry. -/
def TokenAt (token : Option Bytes) (pre : List (Bytes × ν)) : Prop :=
  (token = none ∧ pre = []) ∨ ∃ pre' e, pre = pre' ++ [e] ∧ token = some e.1

/-- The page a token asks for is read from the entries past it. -/
theorem visit_eq {db : RocksDB ν} {start : UInt64} {stop : Option UInt64}
    {token : Option Bytes} {pre R : List (Bytes × ν)} (hs : rangeScan E db start stop = pre ++ R)
    (ht : TokenAt token pre) (size : Option Nat) :
    db.visit (some (makeShardKey E start)) (stop.map (makeShardKey E)) ⟨size, token, false⟩ = R := by
  have hv : db.visit (some (makeShardKey E start)) (stop.map (makeShardKey E)) ⟨size, token, false⟩ =
      (rangeScan E db start stop).filter (fun x => pastToken false token x.1) := by
    simp only [RocksDB.visit, rangeScan, List.filter_filter, Bool.and_comm]
    rfl
  rcases ht with ⟨rfl, rfl⟩ | ⟨pre', e, rfl, rfl⟩
  · simp [hv, hs, pastToken]
  · have hsort := rangeScan_sorted (E := E) db start stop
    rw [hs, List.append_assoc, List.singleton_append] at hsort
    rw [hv, hs, List.append_assoc, List.singleton_append, filter_past_of_sorted hsort]

/-- **The loop reads the rest of the range.** From a token that stands just before the
entries `R`, with enough pages left, the loop returns `R` decoded after what it holds. -/
theorem getShardChunksLoop_eq {db : RocksDB ν} {start : UInt64} {stop : Option UInt64} :
    ∀ (fuel : Nat) (token : Option Bytes) (acc : List ShardChunk) (pre R : List (Bytes × ν)),
      rangeScan E db start stop = pre ++ R → TokenAt token pre → R.length < pageSize * fuel →
      getShardChunksLoop E db start stop fuel token acc =
        some ((((R.mapM (decodeValue E ·.2)).mapError .rocksdbError).map (acc ++ ·)))
  | 0, _, _, _, _, _, _, hf => absurd hf (by simp)
  | fuel + 1, token, acc, pre, R, hs, ht, hf => by
    have hv := visit_eq hs ht (some pageSize)
    simp only [getShardChunksLoop, getShardChunksInRange, getShardPageByPrefix,
      RocksDB.forEachIteratorByPrefixPaged, hv, Option.getD_some]
    by_cases hshort : R.length < pageSize
    · rw [forEachEntry_short R [] (by simpa using hshort)]
      cases R.mapM (decodeValue E ·.2) <;> simp [Except.map, Except.mapError]
    · obtain ⟨P, R', rfl, hP⟩ : ∃ P R', R = P ++ R' ∧ P.length = pageSize :=
        ⟨R.take pageSize, R.drop pageSize, (List.take_append_drop _ _).symm,
          List.length_take_of_le (by omega)⟩
      have hne : P ≠ [] := List.ne_nil_of_length_pos (by rw [hP]; decide)
      rw [forEachEntry_full R' P hne [] (by simpa using hP), List.mapM_append]
      have hmem : P.getLast hne ∈ rangeScan E db start stop := by
        rw [hs]
        exact List.mem_append_right _ (List.mem_append_left _ (List.getLast_mem hne))
      cases hPd : P.mapM (decodeValue E ·.2) with
      | error e => simp [Except.map, Except.mapError]
      | ok cs =>
        have hrest := getShardChunksLoop_eq fuel (some (P.getLast hne).1) (acc ++ cs) (pre ++ P) R'
          (by rw [hs, List.append_assoc])
          (.inr ⟨pre ++ P.dropLast, P.getLast hne, by
            rw [List.append_assoc, List.dropLast_append_getLast], rfl⟩)
          (by simp only [List.length_append, hP] at hf; rw [Nat.mul_succ] at hf; omega)
        have hlen : (P.getLast hne).1.length > 0 := List.length_pos.2 (rangeScan_key_ne_nil hmem)
        simp only [Except.map, ok_bind, hlen, if_true, List.nil_append]
        rw [hrest]
        cases R'.mapM (decodeValue E ·.2) <;> simp [Except.map, Except.mapError]

/-- One page per entry, and one more, cover a range. -/
theorem rangeScan_length_lt (db : RocksDB ν) (start : UInt64) (stop : Option UInt64) :
    (rangeScan E db start stop).length < pageSize * (db.entries.length + 1) := by
  have := List.length_filter_le (fun e : Bytes × ν =>
    inBounds (some (makeShardKey E start)) (stop.map (makeShardKey E)) e.1) db.entries
  simp only [rangeScan, pageSize] at this ⊢
  omega

theorem getShardChunks_eq_loop (s : ShardStore ν) (start : UInt64) (stop : Option UInt64) :
    s.getShardChunks E start stop = some ((scanChunks E s.db start stop).map ([] ++ ·)) :=
  getShardChunksLoop_eq _ none [] [] _ rfl (.inl ⟨rfl, rfl⟩) (rangeScan_length_lt s.db start stop)

theorem map_nil_append {ε : Type} (x : Except ε (List ShardChunk)) : x.map ([] ++ ·) = x := by
  cases x <;> rfl

/-- **`get_shard_chunks` is the unpaged scan of its range.** Its pages, a hundred
entries each, read the entries from `make_shard_key(start)` to `make_shard_key(stop)`
(from `make_shard_key(start)` on, without a stop) once each, in key order, and the loop
ends. -/
theorem getShardChunks_eq_scan (s : ShardStore ν) (start : UInt64) (stop : Option UInt64) :
    s.getShardChunks E start stop = some (scanChunks E s.db start stop) := by
  rw [getShardChunks_eq_loop, map_nil_append]

/-- **With a stop, `get_shard_chunks` reads the chunks of the block range.** When every
key under the shard prefix is nine bytes long, as `put_shard_chunk` writes them,
`get_shard_chunks(a, Some(b))` reads, in key order, exactly the entries stored under
`make_shard_key(n)` for `a ≤ n < b`, and nothing of another store. -/
theorem getShardChunks_block_range {s : ShardStore ν}
    (hs : ∀ e ∈ s.db.entries, e.1.head? = some E.rootPrefixShard → e.1.length = 9)
    (a b : UInt64) :
    ∃ R : List (Bytes × ν),
      s.getShardChunks E a (some b) = some ((R.mapM (decodeValue E ·.2)).mapError .rocksdbError) ∧
      KeySorted R ∧
      ∀ e, e ∈ R ↔ e ∈ s.db.entries ∧ ∃ n, e.1 = makeShardKey E n ∧ a ≤ n ∧ n < b := by
  refine ⟨rangeScan E s.db a (some b), ?_, rangeScan_sorted _ _ _, fun e => ?_⟩
  · rw [getShardChunks_eq_loop, map_nil_append]
    rfl
  · refine List.mem_filter.trans ⟨fun ⟨he, hin⟩ => ⟨he, ?_⟩, fun ⟨he, n, hn, hab⟩ => ⟨he, ?_⟩⟩
    · obtain ⟨n, hn⟩ := exists_makeShardKey (hs e he (head?_of_inBounds hin))
        (head?_of_inBounds hin)
      exact ⟨n, hn, inBounds_makeShardKey_iff.1 (hn ▸ hin)⟩
    · exact hn ▸ inBounds_makeShardKey_iff.2 hab

theorem getShardChunks_block_range_plain :
    (∀ e ∈ [(makeShardKey StoreEnv.plain 1, chunkAt 1 1), (makeShardKey StoreEnv.plain 2, chunkAt 1 2),
        ([2], chunkAt 7 9)], e.1.head? = some StoreEnv.plain.rootPrefixShard → e.1.length = 9) ∧
    ∃ R : List (Bytes × ShardChunk),
      ShardStore.getShardChunks StoreEnv.plain
          ⟨⟨[(makeShardKey StoreEnv.plain 1, chunkAt 1 1), (makeShardKey StoreEnv.plain 2, chunkAt 1 2),
            ([2], chunkAt 7 9)], by decide⟩⟩ 1 (some 2) =
        some ((R.mapM (decodeValue StoreEnv.plain ·.2)).mapError .rocksdbError) ∧
      KeySorted R ∧
      ∀ e, e ∈ R ↔ e ∈ [(makeShardKey StoreEnv.plain 1, chunkAt 1 1),
          (makeShardKey StoreEnv.plain 2, chunkAt 1 2), ([2], chunkAt 7 9)] ∧
        ∃ n, e.1 = makeShardKey StoreEnv.plain n ∧ 1 ≤ n ∧ n < 2 :=
  ⟨by decide, getShardChunks_block_range (s := ⟨⟨[(makeShardKey StoreEnv.plain 1, chunkAt 1 1),
    (makeShardKey StoreEnv.plain 2, chunkAt 1 2), ([2], chunkAt 7 9)], by decide⟩⟩) (by decide) 1 2⟩

/-! ## Writes -/

/-- The value stored under a key, if any. -/
def RocksDB.get (db : RocksDB ν) (k : Bytes) : Option ν :=
  (db.entries.find? fun e => e.1 = k).map Prod.snd

theorem get_insertEntry (k k' : Bytes) (v : ν) :
    ∀ l : List (Bytes × ν), ((insertEntry k v l).find? fun e => e.1 = k').map Prod.snd =
      if k' = k then some v else (l.find? fun e => e.1 = k').map Prod.snd
  | [] => by by_cases h : k' = k <;> simp [insertEntry, h, eq_comm]
  | e :: rest => by
    have ih := get_insertEntry k k' v rest
    by_cases h1 : keyLt k e.1
    · rw [insertEntry, if_pos h1]
      rcases eq_or_ne k' k with rfl | h3
      · simp [List.find?_cons]
      · simp [List.find?_cons, h3, h3.symm]
    by_cases h2 : k = e.1
    · rw [insertEntry, if_neg h1, if_pos h2]
      rcases eq_or_ne k' k with rfl | h3
      · simp [List.find?_cons]
      · simp [List.find?_cons, h3, h3.symm, ← h2]
    · rw [insertEntry, if_neg h1, if_neg h2]
      by_cases h4 : e.1 = k'
      · subst h4
        simp [List.find?_cons, Ne.symm h2]
      · simp [List.find?_cons, h4, ih]

/-- **`put_shard_chunk`.** A chunk without a header fails with `ShardMissingHeader`, one
whose header has no height with `ShardMissingHeight`; any other is stored, encoded, under
`make_shard_key(block_number)`, and no other key changes. -/
theorem putShardChunk_spec (s : ShardStore ν) (c : ShardChunk) :
    (c.header = none → s.putShardChunk E c = .error .shardMissingHeader) ∧
    (∀ header, c.header = some header → header.height = none →
      s.putShardChunk E c = .error .shardMissingHeight) ∧
    (∀ header height, c.header = some header → header.height = some height →
      ∃ s', s.putShardChunk E c = .ok s' ∧
        ∀ k, s'.db.get k =
          if k = makeShardKey E height.blockNumber then some (E.encode c) else s.db.get k) := by
  refine ⟨fun hh => by simp [ShardStore.putShardChunk, putShardChunk, hh, Except.map],
    fun header hh hg => by simp [ShardStore.putShardChunk, putShardChunk, hh, hg, Except.map],
    fun header height hh hg => ⟨⟨s.db.put (makeShardKey E height.blockNumber) (E.encode c)⟩,
      by simp [ShardStore.putShardChunk, putShardChunk, hh, hg, Except.map],
      fun k => get_insertEntry _ _ _ _⟩⟩

/-! ## Keys of other stores -/

section Foreign

variable {b : UInt8} {rest : Bytes} {v : ν} {c : ShardChunk}

/-- A key whose first byte is above `RootPrefix::Shard` lies past every shard key. -/
theorem makeShardKey_lt_foreign (hb : E.rootPrefixShard < b) (n : UInt64) :
    keyLt (makeShardKey E n) (b :: rest) :=
  keyLt_cons_of_lt hb _ _

theorem inBounds_foreign (hb : E.rootPrefixShard < b) (n : UInt64) :
    inBounds (some (makeShardKey E n)) none (b :: rest) = true := by
  simp [inBounds, makeShardKey, not_keyLt_cons_of_lt hb]

/-- **With no stop, the scan reads past the shard store.** A value stored under a key
whose first byte is above `RootPrefix::Shard` is among the chunks
`get_shard_chunks(start, None)` returns, for every `start`, when the values decode. -/
theorem unbounded_scan_reads_foreign_keys {s : ShardStore ν} (hk : (b :: rest, v) ∈ s.db.entries)
    (hb : E.rootPrefixShard < b) (hv : E.decode v = some c)
    (hd : ∀ e ∈ s.db.entries, (E.decode e.2).isSome) (start : UInt64) :
    ∃ cs, s.getShardChunks E start none = some (.ok cs) ∧ c ∈ cs := by
  have hr : (b :: rest, v) ∈ rangeScan E s.db start none :=
    List.mem_filter.2 ⟨hk, inBounds_foreign hb start⟩
  refine ⟨(rangeScan E s.db start none).filterMap (E.decode ·.2), ?_,
    List.mem_filterMap.2 ⟨_, hr, hv⟩⟩
  rw [getShardChunks_eq_loop, map_nil_append, scanChunks,
    mapM_decodeValue_of_decodes (l := rangeScan E s.db start none)
      fun e he => hd e (List.mem_filter.1 he).1]
  rfl

/-- `get_shard_chunks(0, None)` on a database holding a chunk at block 1 and, under the
key `[2]`, a value of another store returns both. -/
theorem unbounded_scan_reads_foreign_keys_plain :
    ShardStore.getShardChunks StoreEnv.plain
        ⟨⟨[(makeShardKey StoreEnv.plain 1, chunkAt 1 1), ([2], chunkAt 7 9)], by decide⟩⟩ 0
        none = some (.ok [chunkAt 1 1, chunkAt 7 9]) ∧
    ∃ cs, ShardStore.getShardChunks StoreEnv.plain
        ⟨⟨[(makeShardKey StoreEnv.plain 1, chunkAt 1 1), ([2], chunkAt 7 9)], by decide⟩⟩ 0
        none = some (.ok cs) ∧ chunkAt 7 9 ∈ cs :=
  ⟨by decide, unbounded_scan_reads_foreign_keys
    (show (([2] : Bytes), chunkAt 7 9) ∈ _ by decide) (by decide) rfl (by decide) 0⟩

/-- A sequence of `put_shard_chunk` calls, each on the store the one before it left; a
put that fails leaves the store as it was. -/
def ShardStore.putShardChunks (E : StoreEnv ν) (s : ShardStore ν) (cs : List ShardChunk) : ShardStore ν :=
  cs.foldl (fun s c => ((s.putShardChunk E c).toOption).getD s) s

/-- An insert under a key below the last one keeps the last entry. -/
theorem getLast?_insertEntry {k : Bytes} {x : Bytes × ν} (hk : keyLt k x.1) :
    ∀ {l : List (Bytes × ν)}, l.getLast? = some x → (insertEntry k v l).getLast? = some x
  | [], h => nomatch h
  | e :: l, h => by
    rw [List.getLast?_cons] at h
    cases hl : l.getLast? with
    | none =>
      obtain rfl := List.getLast?_eq_none_iff.1 hl
      obtain rfl : e = x := by simpa using h
      simp [insertEntry, hk]
    | some y =>
      obtain rfl : y = x := by simpa [hl] using h
      unfold insertEntry
      split_ifs <;> simp [List.getLast?_cons, hl, getLast?_insertEntry hk hl]

/-- Puts write shard keys only, so the largest key, when it lies above
`RootPrefix::Shard`, stays the largest. -/
theorem putShardChunks_getLast? (hb : E.rootPrefixShard < b) :
    ∀ (cs : List ShardChunk) {s : ShardStore ν}, s.db.entries.getLast? = some (b :: rest, v) →
      (s.putShardChunks E cs).db.entries.getLast? = some (b :: rest, v)
  | [], _, hl => hl
  | c :: cs, s, hl => putShardChunks_getLast? hb cs (s := (s.putShardChunk E c).toOption.getD s) (by
    unfold ShardStore.putShardChunk putShardChunk
    split
    · exact hl
    · split
      · exact hl
      · exact getLast?_insertEntry (makeShardKey_lt_foreign hb _) hl)

/-- The reverse scan of `get_last_shard_chunk` starts at the largest key of the whole
database: when that key lies above `RootPrefix::Shard`, its value is the page of one. -/
theorem getLastShardChunk_of_foreign_last {db : RocksDB ν}
    (hl : db.entries.getLast? = some (b :: rest, v)) (hb : E.rootPrefixShard < b)
    (hv : E.decode v = some c) : getLastShardChunk E db = .ok (some c) := by
  obtain ⟨pre, hpre⟩ := List.getLast?_eq_some_iff.1 hl
  have h : (rangeScan E db 0 none).getLast? = some (b :: rest, v) := by
    simp [rangeScan, hpre, List.filter_append, inBounds_foreign hb]
  rw [getLastShardChunk_of_getLast? h]
  unfold decodeValue
  rw [hv]
  rfl

theorem maxBlockNumber_of_last {s : ShardStore ν} (h : s.getLastShardChunk E = .ok (some c)) :
    s.maxBlockNumber E = .ok (((c.header.bind (·.height)).map (·.blockNumber)).getD 0) := by
  simp only [ShardStore.getLastShardChunk] at h
  simp only [ShardStore.maxBlockNumber, getCurrentHeight, h, ok_bind]
  rcases c.header with _ | ⟨_, _, _ | _, _⟩ <;> rfl

/-- **`get_last_shard_chunk` reads the end of the whole database.** When the largest key
of the database lies above `RootPrefix::Shard` and its value decodes as `c`, then after
any sequence of puts `get_last_shard_chunk` returns `c`, and `max_block_number` the block
number in `c`'s header, whatever chunks were put. -/
theorem last_chunk_reads_foreign_keys {s : ShardStore ν}
    (hl : s.db.entries.getLast? = some (b :: rest, v)) (hb : E.rootPrefixShard < b)
    (hv : E.decode v = some c) (cs : List ShardChunk) :
    (s.putShardChunks E cs).getLastShardChunk E = .ok (some c) ∧
    (s.putShardChunks E cs).maxBlockNumber E =
      .ok (((c.header.bind (·.height)).map (·.blockNumber)).getD 0) := by
  have h := getLastShardChunk_of_foreign_last (putShardChunks_getLast? hb cs hl) hb hv
  exact ⟨h, maxBlockNumber_of_last h⟩

/-- A database holds, under the key `[2]`, a value of another store and no chunk. After
a chunk is put at block 5, `get_last_shard_chunk` returns the other store's value and
`max_block_number` is 9. -/
theorem last_chunk_reads_foreign_keys_plain :
    (ShardStore.putShardChunks StoreEnv.plain ⟨⟨[([2], chunkAt 7 9)], by decide⟩⟩
        [chunkAt 1 5]).getLastShardChunk StoreEnv.plain = .ok (some (chunkAt 7 9)) ∧
    (ShardStore.putShardChunks StoreEnv.plain ⟨⟨[([2], chunkAt 7 9)], by decide⟩⟩
        [chunkAt 1 5]).maxBlockNumber StoreEnv.plain = .ok 9 :=
  last_chunk_reads_foreign_keys (s := ⟨⟨[([2], chunkAt 7 9)], by decide⟩⟩) rfl (by decide) rfl
    [chunkAt 1 5]

end Foreign

end Snapchain
