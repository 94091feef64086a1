import ChrisOS.Lib.ByteString

/-!
# The hash function

`HASH_JEN` of `uthash.h`, which `HASH_FCN` stands for. It takes a key in blocks of twelve bytes and
what is left over byte by byte. The key is read from memory; the value is a function of the bytes of
the key alone, as the hash table needs it to find an element by a key that lies elsewhere.
-/

namespace ChrisOS.Uthash

open ChrisOS.Lib

/-- `HASH_JEN_MIX`. -/
def hashJenMix (a b c : BitVec 32) : BitVec 32 × BitVec 32 × BitVec 32 :=
  let a := (a - b - c) ^^^ (c >>> 13)
  let b := (b - c - a) ^^^ (a <<< 8)
  let c := (c - a - b) ^^^ (b >>> 13)
  let a := (a - b - c) ^^^ (c >>> 12)
  let b := (b - c - a) ^^^ (a <<< 16)
  let c := (c - a - b) ^^^ (b >>> 5)
  let a := (a - b - c) ^^^ (c >>> 3)
  let b := (b - c - a) ^^^ (a <<< 10)
  let c := (c - a - b) ^^^ (b >>> 15)
  (a, b, c)

section Model

variable (m : ByteMem 32)

/-- A byte of the key, shifted to its place in a word. -/
def jenByte (key : BitVec 32) (i shift : ℕ) : BitVec 32 :=
  (m (key + BitVec.ofNat 32 i)).setWidth 32 <<< shift

/-- Four bytes of the key from `i` on. -/
def jenWord (key : BitVec 32) (i : ℕ) : BitVec 32 :=
  jenByte m key i 0 + jenByte m key (i + 1) 8 + jenByte m key (i + 2) 16 + jenByte m key (i + 3) 24

/-- The loop over the blocks of twelve bytes: the three words, the address and how much is left. The
loop takes twelve bytes a round, so that a round for every byte is enough. -/
def jenLoop : ℕ → BitVec 32 × BitVec 32 × BitVec 32 → BitVec 32 → ℕ →
    (BitVec 32 × BitVec 32 × BitVec 32) × BitVec 32 × ℕ
  | 0, v, key, k => (v, key, k)
  | rounds + 1, (i, j, hashv), key, k =>
    if 12 ≤ k then
      jenLoop rounds
        (hashJenMix (i + jenWord m key 0) (j + jenWord m key 4) (hashv + jenWord m key 8))
        (key + 12) (k - 12)
    else ((i, j, hashv), key, k)

/-- A byte that is left over, if there are that many. -/
def jenTail (key : BitVec 32) (k i shift : ℕ) : BitVec 32 :=
  if i < k then jenByte m key i shift else 0

/-- `HASH_JEN`: the hash value. -/
def hashJen (key : BitVec 32) (keylen : ℕ) : BitVec 32 :=
  let r := jenLoop m keylen (0x9e3779b9, 0x9e3779b9, 0xfeedbeef) key keylen
  let key := r.2.1
  let k := r.2.2
  -- the cases of the `switch` fall through, so that each byte below `k` is added
  let hashv := r.1.2.2 + BitVec.ofNat 32 keylen + jenTail m key k 10 24 + jenTail m key k 9 16 +
    jenTail m key k 8 8
  let j := r.1.2.1 + jenTail m key k 7 24 + jenTail m key k 6 16 + jenTail m key k 5 8 +
    jenTail m key k 4 0
  let i := r.1.1 + jenTail m key k 3 24 + jenTail m key k 2 16 + jenTail m key k 1 8 +
    jenTail m key k 0 0
  (hashJenMix i j hashv).2.2

end Model

section Reads

variable {m m' : ByteMem 32} {key key' : BitVec 32} {k : ℕ}

/-- Two keys of the same bytes. -/
def SameKey (m m' : ByteMem 32) (key key' : BitVec 32) (k : ℕ) : Prop :=
  ∀ i < k, m (key + BitVec.ofNat 32 i) = m' (key' + BitVec.ofNat 32 i)

theorem jenByte_congr (h : SameKey m m' key key' k) {i : ℕ} (hi : i < k) (shift : ℕ) :
    jenByte m key i shift = jenByte m' key' i shift := by
  rw [jenByte, jenByte, h i hi]

theorem jenWord_congr (h : SameKey m m' key key' k) {i : ℕ} (hi : i + 3 < k) :
    jenWord m key i = jenWord m' key' i := by
  rw [jenWord, jenWord, jenByte_congr h (show i < k by omega),
    jenByte_congr h (show i + 1 < k by omega), jenByte_congr h (show i + 2 < k by omega),
    jenByte_congr h hi]

theorem jenTail_congr (h : SameKey m m' key key' k) (i shift : ℕ) :
    jenTail m key k i shift = jenTail m' key' k i shift := by
  unfold jenTail
  split
  · rename_i hi
    exact jenByte_congr h hi shift
  · rfl

theorem SameKey.drop (h : SameKey m m' key key' k) (hk : 12 ≤ k) :
    SameKey m m' (key + 12) (key' + 12) (k - 12) := by
  intro i hi
  have hnext (a : BitVec 32) : a + 12 + BitVec.ofNat 32 i = a + BitVec.ofNat 32 (12 + i) :=
    add_ofNat_add_ofNat a 12 i
  rw [hnext, hnext]
  exact h (12 + i) (by omega)

/-- The loop makes the same of both keys, and what it leaves over is the same too. -/
theorem jenLoop_congr (rounds : ℕ) (v : BitVec 32 × BitVec 32 × BitVec 32)
    (h : SameKey m m' key key' k) :
    ∃ v' rest rest' left, jenLoop m rounds v key k = (v', rest, left) ∧
      jenLoop m' rounds v key' k = (v', rest', left) ∧ SameKey m m' rest rest' left := by
  induction rounds generalizing v key key' k with
  | zero => exact ⟨v, key, key', k, rfl, rfl, h⟩
  | succ rounds ih =>
    obtain ⟨i, j, hashv⟩ := v
    rw [jenLoop, jenLoop]
    by_cases hk : 12 ≤ k
    · rw [if_pos hk, if_pos hk, jenWord_congr h (show 0 + 3 < k by omega),
        jenWord_congr h (show 4 + 3 < k by omega), jenWord_congr h (show 8 + 3 < k by omega)]
      exact ih _ (h.drop hk)
    · rw [if_neg hk, if_neg hk]
      exact ⟨_, key, key', k, rfl, rfl, h⟩

/-- The hash value is a function of the bytes of the key: two keys of the same bytes have the same
one, wherever they lie and whatever lies behind them. -/
theorem hashJen_reads_key (h : ∀ i < k, m (key + BitVec.ofNat 32 i) = m' (key' + BitVec.ofNat 32 i)) :
    hashJen m key k = hashJen m' key' k := by
  obtain ⟨v, rest, rest', left, hloop, hloop', hsame⟩ :=
    jenLoop_congr k (0x9e3779b9, 0x9e3779b9, 0xfeedbeef) h
  unfold hashJen
  rw [hloop, hloop']
  simp only [jenTail_congr hsame]

/-- The keys "root" and the beginning of "rootfs". -/
theorem hashJen_reads_key_root :
    hashJen (textMem 0x1000 [0x72, 0x6f, 0x6f, 0x74]) 0x1000 4 =
      hashJen (textMem 0x2000 [0x72, 0x6f, 0x6f, 0x74, 0x66, 0x73]) 0x2000 4 :=
  hashJen_reads_key (by decide)

end Reads

end ChrisOS.Uthash
