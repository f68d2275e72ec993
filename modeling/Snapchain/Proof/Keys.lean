import Mathlib.Algebra.Group.Nat.Basic
import Snapchain.Spec.Store

/-!
# Shard keys

`make_shard_key(n)` is the byte of `RootPrefix::Shard` followed by `n.to_be_bytes()`.
Big-endian bytes make the bytewise order RocksDB sorts keys by agree with the order of
block numbers, and the range reads and the reverse lookup of the last chunk rely on it.

* `makeShardKey_order_embedding`: shard keys are nine bytes under the shard prefix, one
  key per block number, ordered as the block numbers are; and a nine-byte key under the
  prefix lies between `make_shard_key(a)` (included) and `make_shard_key(b)` (excluded)
  exactly when it is the key of a block number in `[a, b)`.

The bytes are read as base-256 digits, unfolded from the least significant one, so that
order and injectivity go by induction on the width with `x / 256` and `x % 256`.
-/

namespace Snapchain

/-! ## Lexicographic order on lists -/

section Lex

variable {α : Type} {r : α → α → Prop}

theorem lex_cons_cons {a b : α} {l m : List α} :
    List.Lex r (a :: l) (b :: m) ↔ r a b ∨ (a = b ∧ List.Lex r l m) := by
  constructor
  · intro h
    cases h with
    | cons h => exact .inr ⟨rfl, h⟩
    | rel h => exact .inl h
  · rintro (h | ⟨rfl, h⟩)
    · exact .rel h
    · exact .cons h

/-- Lists of one length, each with one more element at the end, compare as the lists do,
or by the last elements when the lists agree. -/
theorem lex_append_singleton {a b : α} :
    ∀ {l m : List α}, l.length = m.length →
      (List.Lex r (l ++ [a]) (m ++ [b]) ↔ List.Lex r l m ∨ (l = m ∧ r a b))
  | [], [], _ => by simp [List.Lex.singleton_iff, List.Lex.not_nil_right]
  | [], _ :: _, h | _ :: _, [], h => by simp at h
  | x :: l, y :: m, h => by
    rw [List.cons_append, List.cons_append, lex_cons_cons, lex_cons_cons,
      lex_append_singleton (Nat.succ.inj h), List.cons.injEq]
    tauto

end Lex

/-! ## Big-endian digits -/

/-- The `k` base-256 digits of `x` (of `x % 256 ^ k`), most significant first. -/
def beDigits : Nat → Nat → List Nat
  | 0, _ => []
  | k + 1, x => beDigits k (x / 256) ++ [x % 256]

@[simp] theorem beDigits_length (k x : Nat) : (beDigits k x).length = k := by
  induction k generalizing x <;> simp [beDigits, *]

theorem div_lt_pow_of_lt {k x : Nat} (h : x < 256 ^ (k + 1)) : x / 256 < 256 ^ k :=
  (Nat.div_lt_iff_lt_mul (by decide)).2 (by rwa [← Nat.pow_succ])

theorem beDigits_inj : ∀ {k x y : Nat}, x < 256 ^ k → y < 256 ^ k →
    beDigits k x = beDigits k y → x = y
  | 0, _, _, hx, hy, _ => by simp at hx hy; omega
  | k + 1, x, y, hx, hy, h => by
    obtain ⟨h1, h2⟩ := List.append_inj h (by simp)
    have := beDigits_inj (div_lt_pow_of_lt hx) (div_lt_pow_of_lt hy) h1
    simp only [List.cons.injEq, and_true] at h2
    omega

/-- **Big-endian digits of one width are ordered as the numbers are.** -/
theorem beDigits_lt_iff : ∀ {k x y : Nat}, x < 256 ^ k → y < 256 ^ k →
    (beDigits k x < beDigits k y ↔ x < y)
  | 0, _, _, hx, hy => by simp at hx hy; simp [beDigits, hx, hy]
  | k + 1, x, y, hx, hy => by
    have hlt := beDigits_lt_iff (div_lt_pow_of_lt hx) (div_lt_pow_of_lt hy)
    have heq : beDigits k (x / 256) = beDigits k (y / 256) ↔ x / 256 = y / 256 :=
      ⟨beDigits_inj (div_lt_pow_of_lt hx) (div_lt_pow_of_lt hy), congrArg _⟩
    change List.Lex _ (beDigits k (x / 256) ++ [x % 256]) (beDigits k (y / 256) ++ [y % 256]) ↔ _
    rw [lex_append_singleton (by simp)]
    change beDigits k (x / 256) < beDigits k (y / 256) ∨ _ ↔ _
    rw [hlt, heq]
    omega

/-- Every list of `k` digits below 256 is the digits of a number below `256 ^ k`. -/
theorem exists_beDigits : ∀ {k : Nat} {l : List Nat}, l.length = k → (∀ d ∈ l, d < 256) →
    ∃ x < 256 ^ k, beDigits k x = l
  | 0, l, h, _ => ⟨0, by decide, (List.length_eq_zero.1 h).symm⟩
  | k + 1, l, h, hd => by
    obtain rfl | ⟨l, d, rfl⟩ := l.eq_nil_or_concat'
    · simp at h
    obtain ⟨x, hx, rfl⟩ := exists_beDigits (k := k) (by simpa using h)
      fun d' h' => hd d' (List.mem_append_left _ h')
    have hd : d < 256 := hd d (by simp)
    refine ⟨256 * x + d, by rw [Nat.pow_succ]; omega, ?_⟩
    rw [beDigits, show (256 * x + d) / 256 = x by omega, show (256 * x + d) % 256 = d by omega]

/-- `u64::to_be_bytes` of `n`, read as numbers, is its eight big-endian digits. -/
theorem toBeBytes_toNat (n : UInt64) : (toBeBytes n).map UInt8.toNat = beDigits 8 n.toNat := by
  suffices h : ∀ k x, ((List.range k).reverse.map fun i => UInt8.ofNat (x / Nat.pow 256 i)).map
      UInt8.toNat = beDigits k x from h 8 n.toNat
  intro k
  induction k with
  | zero => intro x; rfl
  | succ k ih =>
    intro x
    have hdigit : (fun i => UInt8.ofNat (x / Nat.pow 256 i)) ∘ Nat.succ =
        fun i => UInt8.ofNat (x / 256 / Nat.pow 256 i) := by
      funext i
      rw [Function.comp_apply, Nat.div_div_eq_div_mul, Nat.mul_comm]
      rfl
    rw [List.range_succ_eq_map, List.reverse_cons, ← List.map_reverse, List.map_append,
      List.map_map, hdigit, List.map_append, beDigits, ← ih (x / 256)]
    show _ ++ [(x / 1) % 256] = _
    rw [Nat.div_one]

theorem toNat_lt_pow (n : UInt64) : n.toNat < 256 ^ 8 := n.toNat_lt_size

/-- Keys whose first bytes differ are ordered by those bytes. -/
theorem keyLt_cons_of_lt {a b : UInt8} (h : a < b) (xs ys : Bytes) :
    keyLt (a :: xs) (b :: ys) :=
  List.Lex.rel h

theorem not_keyLt_cons_of_lt {a b : UInt8} (h : a < b) (xs ys : Bytes) :
    ¬ keyLt (b :: xs) (a :: ys) :=
  fun h' => Nat.not_le.2 h (List.head_le_of_lt h')

/-! ## `make_shard_key` -/

variable {ν : Type} {E : StoreEnv ν}

@[simp] theorem makeShardKey_toNat (n : UInt64) :
    (makeShardKey E n).map UInt8.toNat = E.rootPrefixShard.toNat :: beDigits 8 n.toNat := by
  rw [makeShardKey, List.map_cons, toBeBytes_toNat]

theorem makeShardKey_length (n : UInt64) : (makeShardKey E n).length = 9 := by
  simp [makeShardKey, toBeBytes]

theorem makeShardKey_inj {a b : UInt64} (h : makeShardKey E a = makeShardKey E b) : a = b := by
  have h' := congrArg (List.map UInt8.toNat) h
  simp only [makeShardKey_toNat, List.cons.injEq, true_and] at h'
  exact UInt64.toNat.inj (beDigits_inj (toNat_lt_pow a) (toNat_lt_pow b) h')

theorem makeShardKey_lt_iff {a b : UInt64} :
    keyLt (makeShardKey E a) (makeShardKey E b) ↔ a < b := by
  change (makeShardKey E a).map UInt8.toNat < (makeShardKey E b).map UInt8.toNat ↔
    a.toNat < b.toNat
  rw [makeShardKey_toNat, makeShardKey_toNat]
  exact List.Lex.cons_iff.trans (beDigits_lt_iff (toNat_lt_pow a) (toNat_lt_pow b))

/-- Every nine-byte key under the shard prefix is the key of a block number. -/
theorem exists_makeShardKey {k : Bytes} (hl : k.length = 9)
    (hh : k.head? = some E.rootPrefixShard) : ∃ n, k = makeShardKey E n := by
  obtain _ | ⟨p, bs⟩ := k
  · simp at hl
  obtain rfl : p = E.rootPrefixShard := by simpa using hh
  obtain ⟨x, hx, hxd⟩ := exists_beDigits (l := bs.map UInt8.toNat) (by simpa using hl)
    (by simpa using fun b _ => b.toNat_lt_size)
  refine ⟨UInt64.ofNat x, ?_⟩
  rw [makeShardKey, List.cons.injEq]
  refine ⟨rfl, List.map_injective_iff.2 (fun _ _ => UInt8.toNat.inj) ?_⟩
  rw [toBeBytes_toNat, UInt64.toNat_ofNat_of_lt hx, hxd]

/-- A key from `make_shard_key(a)` up to `make_shard_key(b)` starts with the shard
prefix. -/
theorem head?_of_inBounds {a b : UInt64} {k : Bytes}
    (h : inBounds (some (makeShardKey E a)) (some (makeShardKey E b)) k = true) :
    k.head? = some E.rootPrefixShard := by
  simp only [inBounds, Option.all_some, Bool.and_eq_true, Bool.not_eq_true',
    decide_eq_false_iff_not, decide_eq_true_eq] at h
  obtain _ | ⟨x, rest⟩ := k
  · exact absurd List.Lex.nil h.1
  rcases Nat.lt_trichotomy x.toNat E.rootPrefixShard.toNat with hx | hx | hx
  · exact absurd (keyLt_cons_of_lt hx _ _) h.1
  · rw [UInt8.toNat.inj hx]; rfl
  · exact absurd h.2 (not_keyLt_cons_of_lt hx _ _)

theorem inBounds_makeShardKey_iff {a b n : UInt64} :
    inBounds (some (makeShardKey E a)) (some (makeShardKey E b)) (makeShardKey E n) = true ↔
      a ≤ n ∧ n < b := by
  simp [inBounds, makeShardKey_lt_iff]

/-- **`make_shard_key` is an order embedding.** Shard keys are nine bytes under the shard
prefix, equal exactly for equal block numbers and ordered bytewise as the block numbers
are; a nine-byte key under the prefix lies from `make_shard_key(a)` (included) to
`make_shard_key(b)` (excluded) exactly when it is the key of a block number in `[a, b)`. -/
theorem makeShardKey_order_embedding (E : StoreEnv ν) (a b : UInt64) :
    (makeShardKey E a).length = 9 ∧ (makeShardKey E a).head? = some E.rootPrefixShard ∧
    (makeShardKey E a = makeShardKey E b ↔ a = b) ∧
    (keyLt (makeShardKey E a) (makeShardKey E b) ↔ a < b) ∧
    ∀ k : Bytes, k.length = 9 → k.head? = some E.rootPrefixShard →
      (inBounds (some (makeShardKey E a)) (some (makeShardKey E b)) k = true ↔
        ∃ n, k = makeShardKey E n ∧ a ≤ n ∧ n < b) := by
  refine ⟨makeShardKey_length a, rfl, ⟨makeShardKey_inj, congrArg _⟩, makeShardKey_lt_iff,
    fun k hl hh => ?_⟩
  obtain ⟨n, rfl⟩ := exists_makeShardKey hl hh
  rw [inBounds_makeShardKey_iff]
  constructor
  · exact fun h => ⟨n, rfl, h⟩
  · rintro ⟨m, hm, h⟩
    obtain rfl := makeShardKey_inj hm
    exact h

end Snapchain
