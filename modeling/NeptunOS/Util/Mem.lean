import NeptunOS.Util.Word

/-!
# `util/mem.cc`

Byte memory and the routines that fill, copy and compare it. `memset` and
`memcpy` first handle `count & 7` bytes and then `count >> 3` quadwords
(`rep stosq`, `rep movsq`, forward). Addresses are `u64` and wrap.

`memset_apply`, `memcpy_frame` and `memcpy_copies` are the interface: `memset`
changes exactly its range; `memcpy` changes nothing outside its destination and
copies every byte between ranges that do not meet.
-/

namespace NeptunOS

/-- Memory, one byte per `u64` address. -/
abbrev Mem := ℕ → UInt8

/-- Store `f 0, f 1, ..` at `d`, `n` bytes upwards. -/
def storeSeq (mem : Mem) (d : ℕ) (f : ℕ → UInt8) : ℕ → Mem
  | 0 => mem
  | n + 1 => Function.update (storeSeq mem d f n) (wadd d n) (f n)

/-- Byte `k` of a quadword in memory order. -/
def byteOf (w : BitVec 64) (k : ℕ) : UInt8 :=
  UInt8.ofBitVec (w.extractLsb' (8 * k) 8)

/-- `rep stosq`: `n` quadwords upwards from `d`. -/
def repStosq (mem : Mem) (d : ℕ) (w : BitVec 64) : ℕ → Mem
  | 0 => mem
  | n + 1 => storeSeq (repStosq mem d w n) (wadd d (8 * n)) (byteOf w) 8

/-- `c64`: the byte in all eight positions. -/
def splat (c : UInt8) : BitVec 64 :=
  let w := c.toBitVec.setWidth 64
  w ||| (w <<< 8) ||| (w <<< 16) ||| (w <<< 24) ||| (w <<< 32) |||
    (w <<< 40) ||| (w <<< 48) ||| (w <<< 56)

/-- `memset(a, c, count)`. -/
def memset (mem : Mem) (a : ℕ) (c : UInt8) (count : ℕ) : Mem :=
  let toalign := count % 8
  let mem' := storeSeq mem a (fun _ => c) toalign
  if count / 8 = 0 then mem'
  else repStosq mem' (wadd a toalign) (splat c) (count / 8)

/-- `*d = *s` for one byte. -/
def movsb (mem : Mem) (d s : ℕ) : Mem := Function.update mem d (mem s)

/-- `*(d++) = *(s++)`, `n` times: each byte is read from the memory the
previous stores left. -/
def copyBytes (mem : Mem) (d s : ℕ) : ℕ → Mem
  | 0 => mem
  | n + 1 => movsb (copyBytes mem d s n) (wadd d n) (wadd s n)

/-- One step of `rep movsq`: a quadword is loaded, then stored. -/
def movsq (mem : Mem) (d s : ℕ) : Mem :=
  storeSeq mem d (fun k => mem (wadd s k)) 8

/-- `rep movsq`, `n` quadwords upwards. -/
def repMovsq (mem : Mem) (d s : ℕ) : ℕ → Mem
  | 0 => mem
  | n + 1 => movsq (repMovsq mem d s n) (wadd d (8 * n)) (wadd s (8 * n))

/-- `memcpy(dest, src, count)`. -/
def memcpy (mem : Mem) (dest src count : ℕ) : Mem :=
  let toalign := count % 8
  let mem' := copyBytes mem dest src toalign
  if count / 8 = 0 then mem'
  else repMovsq mem' (wadd dest toalign) (wadd src toalign) (count / 8)

/-- `memchk(a, c, count)`: is some byte different from `c`? -/
def memchk (mem : Mem) (a : ℕ) (c : UInt8) : ℕ → Bool
  | 0 => false
  | n + 1 => if mem (wadd a n) ≠ c then true else memchk mem a c n

/-! ## Stores -/

theorem eq_wadd_iff {x d n : ℕ} (hx : x < 2 ^ 64) (hd : d < 2 ^ 64)
    (hn : n < 2 ^ 64) : x = wadd d n ↔ wsub x d = n := by
  unfold wadd wsub
  omega

theorem storeSeq_apply {mem : Mem} {d x : ℕ} {f : ℕ → UInt8}
    (hd : d < 2 ^ 64) (hx : x < 2 ^ 64) : ∀ {n : ℕ}, n ≤ 2 ^ 64 →
    storeSeq mem d f n x =
      if wsub x d < n then f (wsub x d) else mem x
  | 0, _ => by simp [storeSeq]
  | n + 1, hn => by
    have ih := @storeSeq_apply mem d x f hd hx n (by omega)
    have hiff := eq_wadd_iff hx hd (show n < 2 ^ 64 by omega)
    rw [storeSeq]
    by_cases hxn : x = wadd d n
    · have hw := hiff.mp hxn
      rw [← hxn, Function.update_self, hw, if_pos (Nat.lt_succ_self n)]
    · have hw : wsub x d ≠ n := fun h => hxn (hiff.mpr h)
      rw [Function.update_of_ne hxn, ih]
      have : wsub x d < n ↔ wsub x d < n + 1 := by omega
      simp only [this]

theorem storeSeq_add (mem : Mem) (d : ℕ) (f : ℕ → UInt8) (m : ℕ) : ∀ n,
    storeSeq mem d f (m + n) = storeSeq (storeSeq mem d f m) (wadd d m) (fun k => f (m + k)) n
  | 0 => rfl
  | n + 1 => by rw [← Nat.add_assoc, storeSeq, storeSeq_add mem d f m n, storeSeq, wadd_assoc]

theorem storeSeq_congr {mem : Mem} {d : ℕ} {f g : ℕ → UInt8} : ∀ {n : ℕ},
    (∀ k < n, f k = g k) → storeSeq mem d f n = storeSeq mem d g n
  | 0, _ => rfl
  | n + 1, h => by
    rw [storeSeq, storeSeq, h n (Nat.lt_succ_self n),
      storeSeq_congr fun k hk => h k (Nat.lt_succ_of_lt hk)]

theorem repStosq_eq (mem : Mem) (d : ℕ) (w : BitVec 64) : ∀ n,
    repStosq mem d w n = storeSeq mem d (fun k => byteOf w (k % 8)) (8 * n)
  | 0 => rfl
  | n + 1 => by
    rw [repStosq, repStosq_eq mem d w n, Nat.mul_succ, storeSeq_add]
    refine storeSeq_congr fun k hk => ?_
    rw [Nat.mul_add_mod, Nat.mod_eq_of_lt hk]

theorem byteOf_splat (c : UInt8) {k : ℕ} (hk : k < 8) : byteOf (splat c) k = c := by
  have hall : ∀ v < 256, ∀ k < 8,
      byteOf (splat (UInt8.ofNat v)) k = UInt8.ofNat v := by decide +kernel
  have := hall c.toNat c.toNat_lt k hk
  rwa [UInt8.ofNat_toNat] at this

/-- `memset` stores `count` bytes one by one. -/
theorem memset_eq (mem : Mem) (a : ℕ) (c : UInt8) (count : ℕ) :
    memset mem a c count = storeSeq mem a (fun _ => c) count := by
  have hquads : memset mem a c count = repStosq (storeSeq mem a (fun _ => c) (count % 8))
      (wadd a (count % 8)) (splat c) (count / 8) := by
    unfold memset
    split
    case isTrue h8 => rw [h8, repStosq]
    case isFalse => rfl
  rw [hquads, repStosq_eq, storeSeq_congr fun k _ => byteOf_splat c (Nat.mod_lt k (by decide)),
    ← storeSeq_add mem a (fun _ => c), Nat.mod_add_div]

/-- `memset` changes exactly `count` bytes from `a` on. -/
theorem memset_apply {mem : Mem} {a x count : ℕ} {c : UInt8}
    (ha : a < 2 ^ 64) (hx : x < 2 ^ 64) (hc : count ≤ 2 ^ 64) :
    memset mem a c count x = if wsub x a < count then c else mem x := by
  rw [memset_eq, storeSeq_apply ha hx hc]

/-! ## Copies -/

theorem copyBytes_frame {mem : Mem} {d s x : ℕ} (hd : d < 2 ^ 64)
    (hx : x < 2 ^ 64) : ∀ {n : ℕ}, n ≤ 2 ^ 64 → n ≤ wsub x d →
    copyBytes mem d s n x = mem x
  | 0, _, _ => rfl
  | n + 1, hn, hout => by
    have hne : x ≠ wadd d n := fun h => by
      have := (eq_wadd_iff hx hd (by omega)).mp h
      omega
    rw [copyBytes, movsb, Function.update_of_ne hne]
    exact copyBytes_frame hd hx (by omega) (by omega)

theorem repMovsq_frame {mem : Mem} {d s x : ℕ} (hd : d < 2 ^ 64)
    (hx : x < 2 ^ 64) : ∀ {n : ℕ}, 8 * n ≤ 2 ^ 64 → 8 * n ≤ wsub x d →
    repMovsq mem d s n x = mem x
  | 0, _, _ => rfl
  | n + 1, hn, hout => by
    have hout' : ¬ wsub x (wadd d (8 * n)) < 8 := by
      have hlt := wsub_lt x d
      unfold wsub wadd at *
      omega
    rw [repMovsq, movsq, storeSeq_apply (wadd_lt _ _) hx (by decide), if_neg hout']
    exact repMovsq_frame hd hx (by omega) (by omega)

/-- `memcpy` changes nothing outside its destination. -/
theorem memcpy_frame {mem : Mem} {dest src count x : ℕ}
    (hd : dest < 2 ^ 64) (hx : x < 2 ^ 64) (hc : count ≤ 2 ^ 64)
    (hout : count ≤ wsub x dest) : memcpy mem dest src count x = mem x := by
  have hbytes : copyBytes mem dest src (count % 8) x = mem x :=
    copyBytes_frame hd hx (by omega) (by omega)
  unfold memcpy
  by_cases h8 : count / 8 = 0
  · rw [if_pos h8, hbytes]
  · have hout' : 8 * (count / 8) ≤ wsub x (wadd dest (count % 8)) := by
      have hlt := wsub_lt x dest
      unfold wsub wadd at *
      omega
    rw [if_neg h8, repMovsq_frame (wadd_lt _ _) hx (by omega) hout', hbytes]

section Copies

variable {mem : Mem} {d s : ℕ} (hd : d < 2 ^ 64)

include hd

/-- No byte of the source is overwritten before it is read, as long as the destination does not
reach it from below. -/
theorem storeSeq_ahead {f : ℕ → UInt8} {n k : ℕ} (hap : wsub s d + (n + k) < 2 ^ 64) :
    storeSeq mem d f n (wadd s (n + k)) = mem (wadd s (n + k)) := by
  have hout : ¬ wsub (wadd s (n + k)) d < n := by
    unfold wsub wadd at *
    omega
  rw [storeSeq_apply hd (wadd_lt _ _) (by omega), if_neg hout]

theorem copyBytes_eq : ∀ {n : ℕ}, wsub s d + n ≤ 2 ^ 64 →
    copyBytes mem d s n = storeSeq mem d (fun k => mem (wadd s k)) n
  | 0, _ => rfl
  | n + 1, hap => by
    rw [copyBytes, movsb, copyBytes_eq (by omega), storeSeq]
    exact congrArg _ (storeSeq_ahead (k := 0) hd hap)

theorem repMovsq_eq : ∀ {n : ℕ}, wsub s d + 8 * n ≤ 2 ^ 64 →
    repMovsq mem d s n = storeSeq mem d (fun k => mem (wadd s k)) (8 * n)
  | 0, _ => rfl
  | n + 1, hap => by
    rw [repMovsq, movsq, repMovsq_eq (by omega), Nat.mul_succ, storeSeq_add]
    refine storeSeq_congr fun k hk => ?_
    rw [wadd_assoc, storeSeq_ahead hd (by omega)]

/-- `memcpy` stores what the source held before, unless it overwrites the source from below. -/
theorem memcpy_eq {count : ℕ} (hap : wsub s d + count ≤ 2 ^ 64) :
    memcpy mem d s count = storeSeq mem d (fun k => mem (wadd s k)) count := by
  have hquads : memcpy mem d s count = repMovsq (copyBytes mem d s (count % 8))
      (wadd d (count % 8)) (wadd s (count % 8)) (count / 8) := by
    unfold memcpy
    split
    case isTrue h8 => rw [h8, repMovsq]
    case isFalse => rfl
  have hsame : wsub (wadd s (count % 8)) (wadd d (count % 8)) = wsub s d := by
    unfold wsub wadd
    omega
  rw [hquads, repMovsq_eq (wadd_lt _ _) (by omega), copyBytes_eq hd (by omega)]
  have hrest := storeSeq_add mem d (fun k => mem (wadd s k)) (count % 8) (8 * (count / 8))
  rw [Nat.mod_add_div] at hrest
  rw [hrest]
  refine storeSeq_congr fun k hk => ?_
  rw [wadd_assoc, storeSeq_ahead hd (by omega)]

end Copies

/-- **`memcpy`** between ranges that do not meet copies every byte. -/
theorem memcpy_copies {mem : Mem} {d s count i : ℕ} (hd : d + count ≤ 2 ^ 64)
    (hs : s + count ≤ 2 ^ 64) (hap : d + count ≤ s ∨ s + count ≤ d) (hi : i < count) :
    memcpy mem d s count (d + i) = mem (s + i) := by
  have hoff : wsub (d + i) d = i := by rw [wsub_of_le] <;> omega
  rw [memcpy_eq (by omega) (by unfold wsub; omega), storeSeq_apply (by omega) (by omega) (by omega),
    hoff, if_pos hi, wadd_of_lt (by omega)]

/-- **`memset` and `memcpy` byte by byte.** The ranges may wrap around; a source that the
destination reaches from below may not. -/
theorem mem_bytewise (mem : Mem) {a dest src count : ℕ} (c : UInt8) (ha : a < 2 ^ 64)
    (hd : dest < 2 ^ 64) (hcount : count < 2 ^ 64) :
    (∀ i < count, memset mem a c count (wadd a i) = c) ∧
    (∀ x < 2 ^ 64, (∀ i < count, x ≠ wadd a i) → memset mem a c count x = mem x) ∧
    ((∀ i < count, ∀ j < count, wadd dest i ≠ wadd src j) ∨
        dest < src ∧ src + count ≤ 2 ^ 64 →
      (∀ i < count, memcpy mem dest src count (wadd dest i) = mem (wadd src i)) ∧
      ∀ x < 2 ^ 64, (∀ i < count, x ≠ wadd dest i) → memcpy mem dest src count x = mem x) := by
  have hin : ∀ {d i : ℕ}, d < 2 ^ 64 → i < count → wsub (wadd d i) d = i := by
    intro d i hd hi
    exact (eq_wadd_iff (wadd_lt _ _) hd (by omega)).mp rfl
  have hout : ∀ {d x : ℕ}, d < 2 ^ 64 → x < 2 ^ 64 → (∀ i < count, x ≠ wadd d i) →
      ¬ wsub x d < count := by
    intro d x hd hx hne hlt
    exact hne _ hlt ((eq_wadd_iff hx hd (wsub_lt _ _)).mpr rfl)
  refine ⟨fun i hi => ?_, fun x hx hne => ?_, fun hap => ⟨fun i hi => ?_, fun x hx hne => ?_⟩⟩
  · rw [memset_apply ha (wadd_lt _ _) (by omega), hin ha hi, if_pos hi]
  · rw [memset_apply ha hx (by omega), if_neg (hout ha hx hne)]
  · have hahead : wsub src dest + count ≤ 2 ^ 64 := by
      rcases hap with hap | hap
      · have hmeet := hap 0 (by omega) (2 ^ 64 - wsub src dest)
        unfold wsub wadd at *
        omega
      · unfold wsub
        omega
    rw [memcpy_eq hd hahead, storeSeq_apply hd (wadd_lt _ _) (by omega), hin hd hi, if_pos hi]
  · exact memcpy_frame hd hx (by omega) (Nat.le_of_not_lt (hout hd hx hne))

/-- A scroll by three bytes: quadwords that overlap what they are read from. -/
theorem mem_bytewise_scroll : memcpy UInt8.ofNat 4096 4099 21 4116 = 23 :=
  ((mem_bytewise UInt8.ofNat 0 (by decide : 0 < 2 ^ 64) (by decide) (by decide)).2.2
    (.inr ⟨by decide, by decide⟩)).1 20 (by decide)

/-! ## Comparison -/

theorem memchk_eq_false {mem : Mem} {a : ℕ} {c : UInt8} : ∀ {n : ℕ},
    memchk mem a c n = false ↔ ∀ k < n, mem (wadd a k) = c
  | 0 => by simp [memchk]
  | n + 1 => by
    have ih := @memchk_eq_false mem a c n
    rw [memchk]
    by_cases h : mem (wadd a n) = c
    · rw [if_neg (by simpa using h), ih]
      constructor
      · intro hall k hk
        by_cases hkn : k = n
        · rw [hkn, h]
        · exact hall k (by omega)
      · intro hall k hk
        exact hall k (by omega)
    · rw [if_pos h]
      constructor
      · intro hf
        cases hf
      · intro hall
        exact absurd (hall n (Nat.lt_succ_self n)) h

end NeptunOS
