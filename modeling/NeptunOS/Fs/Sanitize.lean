import NeptunOS.Fs.Path
import NeptunOS.Storage.StringText

/-!
# `path_sanitize` (`fs/fs.cc`)

The result is a `String` that reserves room for the path and grows by one character at a
time. At each multiple of 16 behind the reserved block its terminator is in the redzone:
there it can grow in place only, and it must not be destroyed (`sanitizeString_iff`).
-/

namespace NeptunOS

namespace Fs

open Stepwise

/-- The loop of `path_sanitize`; `grow k` is the answer of the allocator at `k` characters. -/
def sanitizeInto (grow : ℕ → Grow UInt8) : Bool → Str → Path → Except Halt Str
  | _, ret, [] => .ok ret
  | skip, ret, c :: p =>
    if c = slash ∧ skip then sanitizeInto grow true ret p
    else do
      let ret ← ret.appendChar (grow ret.size) c
      sanitizeInto grow (c = slash) ret p

/-- `path_sanitize(p)`. -/
def sanitizeString (grow : ℕ → Grow UInt8) (p : Path) : Except Halt Str := do
  let ret ← Str.empty.reserve (grow 0) (Str.strlen p)
  sanitizeInto grow false { ret with size := 0 } p

/-- A string of `n` characters that began with `cap` bytes fills its block. -/
def Full (cap n : ℕ) : Prop := n ≠ 0 ∧ 16 ∣ n ∧ cap ≤ n

instance (cap n : ℕ) : Decidable (Full cap n) := inferInstanceAs (Decidable (_ ∧ _ ∧ _))

/-- `path_sanitize(p)` returns, and its result can be destroyed. -/
def Survives (grow : ℕ → Grow UInt8) (p : Path) : Prop :=
  (∀ k < (pathSanitize p).length, Full (align (Str.strlen p) 16) k → (grow k).inPlace = true) ∧
    ¬ Full (align (Str.strlen p) 16) (pathSanitize p).length

instance (grow : ℕ → Grow UInt8) (p : Path) : Decidable (Survives grow p) :=
  inferInstanceAs (Decidable (_ ∧ ¬ _))

/-- A string of `n` characters in a block of at least `cap` bytes. -/
structure Grown (cap n : ℕ) (s : Str) : Prop where
  size : s.size = n
  len : s.blockLen = max cap (align n 16)
  pos : ∀ b, s.data = some b → 0 < b.len
  spilled : s.spilled = decide (Full cap n)

section

variable {cap n : ℕ} {s : Str} {g : Grow UInt8}

theorem Grown.free_eq (h : Grown cap n s) :
    s.free = if Full cap n then .error Str.corrupted else .ok () := by
  unfold Str.free
  rw [h.spilled]
  simp

section

variable (h : Grown cap n s) (hn : n + 17 < 2 ^ 64)

include h hn

theorem Grown.eq_zero (hdata : s.data = none) : n = 0 := by
  have hlen := h.len
  rw [Str.blockLen, hdata, align_of_lt (by omega)] at hlen
  change 0 = _ at hlen
  omega

/-- There is room for one more character unless the string fills its block. -/
theorem Grown.fits_iff (hcap : 16 ∣ cap) {b : Block} (hdata : s.data = some b) :
    align (if n + 1 < s.size then s.size else n + 1) 16 ≤ b.len ↔ ¬ Full cap n := by
  have hlen := h.len
  have hpos := h.pos b hdata
  rw [Str.blockLen, hdata, align_of_lt (by omega)] at hlen
  change b.len = _ at hlen
  rw [if_neg (by rw [h.size]; omega), align_of_lt (by omega), Full]
  omega

/-- Where the string fills its block it cannot move. -/
theorem Grown.reserve_full (hcap : 16 ∣ cap) (hfull : Full cap n) (hplace : g.inPlace = false) :
    ∃ e, s.reserve g (n + 1) = .error e := by
  unfold Str.reserve
  dsimp only
  split
  case h_1 hdata => exact absurd (h.eq_zero hn hdata) hfull.1
  case h_2 b hdata =>
    rw [if_neg fun hfits => (h.fits_iff hn hcap hdata).mp hfits hfull, hplace,
      if_neg Bool.false_ne_true]
    split
    · exact ⟨_, rfl⟩
    · rw [h.free_eq, if_pos hfull]
      exact ⟨_, rfl⟩

theorem Grown.reserve_ok (hcap : 16 ∣ cap) (hfree : Full cap n → g.inPlace = true) :
    ∃ s', s.reserve g (n + 1) = .ok s' := by
  unfold Str.reserve
  dsimp only
  split
  case h_1 => exact ⟨_, rfl⟩
  case h_2 b hdata =>
    by_cases hfull : Full cap n
    · rw [if_neg fun hfits => (h.fits_iff hn hcap hdata).mp hfits hfull, if_pos (hfree hfull)]
      exact ⟨_, rfl⟩
    · rw [if_pos ((h.fits_iff hn hcap hdata).mpr hfull)]
      exact ⟨_, rfl⟩

/-- One more character. -/
theorem Grown.appendChar (hcap : 16 ∣ cap) (hfree : Full cap n → g.inPlace = true) (c : UInt8) :
    ∃ s', s.appendChar g c = .ok s' ∧ Grown cap (n + 1) s' ∧ s'.text = s.text ++ [c] := by
  have hsize := h.size
  have hlen := h.len
  have hadd : wadd s.size 1 = n + 1 := by rw [hsize, wadd_of_lt (by omega)]
  have hnull : s.data = none → s.size = 0 := fun hdata => hsize.trans (h.eq_zero hn hdata)
  obtain ⟨s₁, hreserve⟩ := h.reserve_ok hn hcap hfree
  have hres := Str.reserve_reserved hnull (by omega) hreserve
  obtain ⟨b, hb, hbytes, hblock⟩ := hres.block (by omega)
  have hsize₁ : s₁.size = n := hres.size.trans hsize
  have hlen₁ : b.len = max cap (align (n + 1) 16) := by
    rw [hblock, hsize, Nat.max_eq_left (Nat.le_succ n)]
    change max _ s.blockLen = _
    rw [hlen, align_of_lt (by omega), align_of_lt (by omega)]
    omega
  refine ⟨{ s₁ with
      data := some ((b.store n (fun _ => c) 1).store (n + 1) (fun _ => 0) 1)
      size := n + 1
      log := s₁.log ++ [⟨n, 1, b.len⟩] ++ [⟨n + 1, 1, b.len⟩] }, ?_, ?_, ?_⟩
  · unfold Str.appendChar
    rw [hadd, hreserve, ok_bind, Str.store, hb, ok_bind]
    show Str.store _ (wadd s₁.size 1) _ 1 = _
    rw [hsize₁, wadd_of_lt (by omega)]
    rfl
  · refine ⟨rfl, hlen₁, fun b' hb' => ?_, ?_⟩
    · obtain rfl := Option.some.inj hb'
      show 0 < b.len
      rw [hlen₁, align_of_lt (by omega)]
      omega
    · have hroom := hlen₁
      rw [align_of_lt (by omega)] at hroom
      unfold Str.spilled
      rw [List.getLast?_append_of_ne_nil _ (by simp)]
      by_cases hfull : Full cap (n + 1)
      · obtain ⟨-, hdvd, hle⟩ := id hfull
        have heq : b.len = n + 1 := by omega
        simp [hfull, Write.Inside, Block.store, heq, Heap.redzoneMagic]
      · have hinside : n + 1 + 1 ≤ b.len := by
          by_contra hge
          exact hfull ⟨by omega, by omega, by omega⟩
        simp [hfull, Write.Inside, Block.store, hinside]
  · refine @Str.text_append _ _ 1 (fun _ => c) (by rw [hsize]) (fun i hi => ?_) fun i hi => ?_
    · rw [Str.bytes_some rfl, Str.store_bytes, Str.store_bytes, if_neg (by omega),
        if_neg (by omega), hbytes i hi]
    · rw [Str.bytes_some rfl, Str.store_bytes, Str.store_bytes, if_neg (by omega),
        if_pos (by omega)]

end

/-! ## The whole path -/

/-- Characters appended one by one. -/
def appendAll (grow : ℕ → Grow UInt8) : Str → Path → Except Halt Str
  | ret, [] => .ok ret
  | ret, c :: cs => do
    let ret ← ret.appendChar (grow ret.size) c
    appendAll grow ret cs

theorem sanitizeInto_eq (grow : ℕ → Grow UInt8) (p : Path) (skip : Bool) (ret : Str) :
    sanitizeInto grow skip ret p = appendAll grow ret (sanitizeLoop skip p) := by
  induction p generalizing skip ret with
  | nil => rfl
  | cons c p ih =>
    by_cases hc : c = slash <;> cases skip <;> simp [sanitizeInto, sanitizeLoop, hc, appendAll, ih]

section

variable (grow : ℕ → Grow UInt8) (hcap : 16 ∣ cap)

include hcap

theorem appendAll_ok (cs : Path) (h : Grown cap n s) (hn : n + cs.length + 17 < 2 ^ 64)
    (hgrow : ∀ k < n + cs.length, n ≤ k → Full cap k → (grow k).inPlace = true) :
    ∃ s', appendAll grow s cs = .ok s' ∧ Grown cap (n + cs.length) s' ∧
      s'.text = s.text ++ cs := by
  induction cs generalizing n s with
  | nil => exact ⟨s, rfl, h, (List.append_nil _).symm⟩
  | cons c cs ih =>
    rw [List.length_cons] at hn hgrow
    have hfree := hgrow n (by omega) (Nat.le_refl n)
    obtain ⟨s₁, hs₁, hgrown, htext⟩ := h.appendChar (by omega) hcap hfree c
    obtain ⟨s', hs', hgrown', htext'⟩ :=
      ih hgrown (by omega) fun k hk hle => hgrow k (by omega) (by omega)
    rw [List.length_cons, appendAll, h.size, hs₁, ok_bind]
    refine ⟨s', hs', ?_, ?_⟩
    · rwa [show n + 1 + cs.length = n + (cs.length + 1) by omega] at hgrown'
    · rw [htext', htext, List.append_assoc]
      rfl

theorem appendAll_error (cs : Path) (h : Grown cap n s) (hn : n + cs.length + 17 < 2 ^ 64)
    {k : ℕ} (hk : k < n + cs.length) (hle : n ≤ k) (hfull : Full cap k)
    (hplace : (grow k).inPlace = false) : ∃ e, appendAll grow s cs = .error e := by
  induction cs generalizing n s with
  | nil =>
    rw [List.length_nil] at hk
    omega
  | cons c cs ih =>
    rw [List.length_cons] at hn hk
    rw [appendAll, h.size]
    by_cases hstop : Full cap n ∧ (grow n).inPlace = false
    · obtain ⟨e, he⟩ := h.reserve_full (by omega) hcap hstop.1 hstop.2
      have hadd : wadd s.size 1 = n + 1 := by rw [h.size, wadd_of_lt (by omega)]
      exact ⟨e, by rw [Str.appendChar, hadd, he]; rfl⟩
    · have hne : n ≠ k := by
        rintro rfl
        exact hstop ⟨hfull, hplace⟩
      obtain ⟨s₁, hs₁, hgrown, -⟩ := h.appendChar (by omega) hcap
        (fun hn => Bool.of_not_eq_false fun hp => hstop ⟨hn, hp⟩) c
      rw [hs₁, ok_bind]
      exact ih hgrown (by omega) (by omega) (by omega)

end

end

section

variable (grow : ℕ → Grow UInt8) {p : Path}

/-- The block that is reserved first. -/
theorem reserved_grown (p : Path) : ∃ ret, Str.empty.reserve (grow 0) (Str.strlen p) = .ok ret ∧
    Grown (align (Str.strlen p) 16) 0 { ret with size := 0 } := by
  have hlt : Str.strlen p < 2 ^ 8 := Nat.mod_lt _ (by decide)
  have hzero : align 0 16 = 0 := by decide
  have hnot : ¬ Full (align (Str.strlen p) 16) 0 := fun h => h.1 rfl
  refine ⟨_, rfl, rfl, ?_, fun b hb => ?_, ?_⟩
  · rw [hzero, Nat.max_zero]
    show ((galloc (grow 0) (Str.strlen p)).map Block.len).getD 0 = _
    by_cases h : Str.strlen p = 0
    · rw [galloc, if_pos h, h]
      rfl
    · rw [galloc, if_neg h]
      rfl
  · have hne : Str.strlen p ≠ 0 := fun h => by
      change galloc (grow 0) (Str.strlen p) = some b at hb
      rw [galloc, if_pos h] at hb
      cases hb
    change galloc (grow 0) (Str.strlen p) = some b at hb
    rw [galloc, if_neg hne] at hb
    obtain rfl := Option.some.inj hb
    show 0 < align (Str.strlen p) 16
    rw [align_of_lt (by omega)]
    omega
  · rw [decide_eq_false hnot, Str.spilled]
    split
    case h_1 _ hlog => cases hlog
    case h_2 => rfl

/-- The string is made and destroyed if and only if it survives, and then it has the text. -/
theorem sanitizeString_iff (hlen : p.length + 17 < 2 ^ 64) :
    (Survives grow p → ∃ san, sanitizeString grow p = .ok san ∧ san.free = .ok () ∧
      san.text = pathSanitize p) ∧
    (¬ Survives grow p → ∀ san, sanitizeString grow p = .ok san → san.free ≠ .ok ()) := by
  have hle := (pathSanitize_sublist p).length_le
  have hcap : 16 ∣ align (Str.strlen p) 16 := by
    unfold align
    exact Dvd.intro_left _ rfl
  obtain ⟨ret, hret, hgrown⟩ := reserved_grown grow p
  have hempty : Str.text { ret with size := 0 } = [] := rfl
  have heq : sanitizeString grow p = appendAll grow { ret with size := 0 } (pathSanitize p) := by
    rw [sanitizeString, hret, ok_bind, sanitizeInto_eq]
    rfl
  rw [heq]
  have hok := fun hgrow => appendAll_ok grow hcap (pathSanitize p) hgrown (by omega) hgrow
  rw [Nat.zero_add, hempty, List.nil_append] at hok
  constructor
  · rintro ⟨hgrow, hfull⟩
    obtain ⟨san, hsan, hsan', htext⟩ := hok fun k hk _ => hgrow k hk
    exact ⟨san, hsan, by rw [hsan'.free_eq, if_neg hfull], htext⟩
  · intro hnot san hsan hfree
    by_cases hgrow : ∀ k < (pathSanitize p).length,
        Full (align (Str.strlen p) 16) k → (grow k).inPlace = true
    · obtain ⟨san', hsan', hgrown', -⟩ := hok fun k hk _ => hgrow k hk
      obtain rfl := Except.ok.inj (hsan.symm.trans hsan')
      refine hnot ⟨hgrow, fun hfull => ?_⟩
      rw [hgrown'.free_eq, if_pos hfull] at hfree
      cases hfree
    · push Not at hgrow
      obtain ⟨k, hk, hfull, hplace⟩ := hgrow
      obtain ⟨e, he⟩ := appendAll_error grow hcap (pathSanitize p) hgrown (by omega)
        (by omega) (Nat.zero_le k) hfull (Bool.eq_false_iff.mpr hplace)
      rw [hsan] at he
      cases he

end

end Fs

end NeptunOS
