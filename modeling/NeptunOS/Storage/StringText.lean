import Mathlib.Data.List.TakeDrop
import NeptunOS.Storage.String
import NeptunOS.Util.Str

/-!
# The text of a `String`

Each operation on strings has a meaning for lists of bytes. `strlen` counts in a `u8`, so that
the operations that take a C string lose the text of a longer one in blocks of 256 characters;
self-assignment reads the block it has just got.

- `text`: the characters of a string.
- `Op.meaning`: the operation on texts.
- `Exact`: the steps that do what they mean (`step_exact`).
-/

namespace NeptunOS

namespace Str

open Stepwise

open Function (update)

/-- The characters of a string. -/
def text (s : Str) : List UInt8 := (List.range s.size).map s.bytes

/-- The length of the block. -/
def blockLen (s : Str) : ℕ := (s.data.map Block.len).getD 0

/-! ## Comparing -/

/-- `StringView(String& s)`. -/
def view (s : Str) : StringView := ⟨0, text s⟩

/-- `operator==` of two strings, which is the one of `Vector`. -/
def equal (s o : Str) : Bool :=
  if o.size ≠ s.size then false
  else (List.range s.size).all fun i => s.bytes i = o.bytes i

/-- The operation on texts. -/
def Op.meaning (t : ℕ → List UInt8) : Op → ℕ → List UInt8
  | .default i => update t i []
  | .ofCStr i str _ => update t i str
  | .substr i str len _ => update t i (str.take len)
  | .copy i j _ | .move i j _ | .assign i j _ => update t i (t j)
  | .moveAssign i j => update (update t i (t j)) j []
  | .appendCStr i str _ => update t i (t i ++ str)
  | .appendChar i c _ => update t i (t i ++ [c])
  | .resize i n _ _ => update t i ((t i).take n ++ List.replicate (n - (t i).length) 0)

/-- `reserve(cap)` has to move a string whose characters a `u32` cannot count. -/
def Stuck (len size cap : ℕ) (g : Grow UInt8) : Prop :=
  len < align (max cap size) 16 ∧ g.inPlace = false ∧ 2 ^ 32 ≤ size

instance (len size cap : ℕ) (g : Grow UInt8) : Decidable (Stuck len size cap g) :=
  inferInstanceAs (Decidable (_ ∧ _ ∧ _))

/-- The step does what it means. -/
def Exact (e : Env) : Op → Prop
  | .ofCStr _ str _ => str.length < 2 ^ 8
  | .substr _ str len _ => len ≤ str.length
  | .assign i j g => i = j → ∀ k < (e i).size, g.block k = (e i).bytes k
  | .appendCStr i str g =>
    str.length < 2 ^ 8 ∧ ¬ Stuck (e i).blockLen (e i).size ((e i).size + strlen str + 1) g
  | .appendChar i _ g => ¬ Stuck (e i).blockLen (e i).size ((e i).size + 1) g
  | .resize i n g g' =>
    ¬ Stuck (e i).blockLen (e i).size n g ∧
      ¬ Stuck (max (align (max n (e i).size) 16) (e i).blockLen) n (n + 1) g'
  | .default _ | .copy .. | .move .. | .moveAssign .. => True

instance (e : Env) : DecidablePred (Exact e)
  | .ofCStr .. => inferInstanceAs (Decidable (_ < _))
  | .substr .. => inferInstanceAs (Decidable (_ ≤ _))
  | .assign .. => inferInstanceAs (Decidable (_ → ∀ k < _, _ = _))
  | .appendCStr .. => inferInstanceAs (Decidable (_ < _ ∧ ¬ _))
  | .appendChar .. => inferInstanceAs (Decidable (¬ _))
  | .resize .. => inferInstanceAs (Decidable (¬ _ ∧ ¬ _))
  | .default _ | .copy .. | .move .. | .moveAssign .. => inferInstanceAs (Decidable True)

section

variable {s s' : Str} {g : Grow UInt8} {off n cap : ℕ} {src : ℕ → UInt8}

@[simp] theorem length_text (s : Str) : (text s).length = s.size := by
  simp [text]

theorem text_of_size_zero (h : s.size = 0) : text s = [] := by
  rw [text, h]
  rfl

/-- The text from the size and the single characters. -/
theorem text_eq (hsize : s.size = n) (hbytes : ∀ i < n, s.bytes i = src i) :
    text s = (List.range n).map src := by
  rw [text, hsize]
  exact List.map_congr_left fun i hi => hbytes i (List.mem_range.mp hi)

theorem text_append (hsize : s'.size = s.size + n) (hold : ∀ i < s.size, s'.bytes i = s.bytes i)
    (hnew : ∀ i < n, s'.bytes (s.size + i) = src i) :
    text s' = text s ++ (List.range n).map src := by
  rw [text, hsize, List.range_add, List.map_append, List.map_map]
  congr 1
  · exact List.map_congr_left fun i hi => hold i (List.mem_range.mp hi)
  · exact List.map_congr_left fun i hi => hnew i (List.mem_range.mp hi)

theorem text_eq_iff {o : Str} :
    text s = text o ↔ s.size = o.size ∧ ∀ i < s.size, s.bytes i = o.bytes i := by
  constructor
  · intro h
    have hsize : s.size = o.size := by rw [← length_text s, h, length_text]
    unfold text at h
    rw [← hsize, List.map_inj_left] at h
    exact ⟨hsize, fun i hi => h i (List.mem_range.mpr hi)⟩
  · rintro ⟨hsize, hbytes⟩
    exact text_eq hsize fun i hi => hbytes i (hsize ▸ hi)

theorem bytes_some {b : Block} (hb : s.data = some b) (i : ℕ) : s.bytes i = b.bytes i := by
  rw [bytes, hb]
  rfl

theorem store_bytes (b : Block) (off : ℕ) (src : ℕ → UInt8) (n i : ℕ) :
    (b.store off src n).bytes i =
      if off ≤ i ∧ i < off + n then src (i - off) else b.bytes i := rfl

/-! ## Comparisons -/

theorem equal_eq (s o : Str) : s.equal o = decide (text s = text o) := by
  rw [Bool.eq_iff_iff, decide_eq_true_eq, text_eq_iff, equal]
  split
  case isTrue hne => exact iff_of_false Bool.false_ne_true fun h => hne h.1.symm
  case isFalse heq =>
    rw [not_ne_iff] at heq
    simp [heq]

/-! ## The operations -/

variable {o : Str} {str : List UInt8}

theorem map_bytesOf (h : n ≤ str.length) : (List.range n).map (bytesOf str) = str.take n := by
  refine List.ext_getElem (by simp [h]) fun i hi hi' => ?_
  have hlt : i < str.length := by
    simp only [List.length_take] at hi'
    omega
  simp [bytesOf, hlt]

theorem strlen_le (str : List UInt8) : strlen str ≤ str.length := Nat.mod_le _ _

/-- The length of a C string is counted right up to 255 characters. -/
theorem take_strlen : str.take (strlen str) = str ↔ str.length < 2 ^ 8 := by
  rw [List.take_eq_self_iff]
  unfold strlen
  omega

/-- What is known to have a text has no other one. -/
theorem text_iff {x : Except Halt Str} {v w : List UInt8} (h : ∃ s, x = .ok s ∧ text s = v) :
    (∃ s, x = .ok s ∧ text s = w) ↔ v = w := by
  obtain ⟨s, rfl, rfl⟩ := h
  constructor
  · rintro ⟨s', hs', rfl⟩
    rw [Except.ok.inj hs']
  · intro hw
    exact ⟨s, rfl, hw⟩

theorem terminate_text {b : Block} (hb : s.data = some b) :
    ∃ s', s.terminate = .ok s' ∧ text s' = text s := by
  refine ⟨{ s with data := some (b.store s.size (fun _ => 0) 1),
                   log := s.log ++ [⟨s.size, 1, b.len⟩] }, ?_, ?_⟩
  · rw [terminate, store, hb]
  · refine text_eq rfl fun i hi => ?_
    rw [bytes_some hb, bytes_some rfl, store_bytes, if_neg (by omega)]

/-- The first write to a new block makes the text. -/
theorem store_galloc (g : Grow UInt8) (src : ℕ → UInt8) (cap : ℕ) (log : List Write) (hn : n ≠ 0)
    {size k : ℕ} (hk : size ≤ k) :
    ∃ s₁ b, store ⟨galloc g n, size, cap, log⟩ 0 src k = .ok s₁ ∧ s₁.data = some b ∧
      text s₁ = (List.range size).map src := by
  have hnew : galloc g n = some ⟨align n 16, g.block⟩ := if_neg hn
  rw [hnew]
  refine ⟨_, _, rfl, rfl, text_eq rfl fun i hi => ?_⟩
  rw [bytes_some rfl, store_bytes, if_pos (by omega)]
  rfl

theorem ofCStr_exact (g : Grow UInt8) (str : List UInt8) :
    (∃ s, ofCStr g str = .ok s ∧ text s = str) ↔ str.length < 2 ^ 8 := by
  have htext : ∃ s, ofCStr g str = .ok s ∧ text s = str.take (strlen str) := by
    obtain ⟨s₁, b, h₁, hb, htext⟩ := store_galloc g (bytesOf str) (strlen str + 1) []
      (Nat.succ_ne_zero (strlen str)) (Nat.le_succ (strlen str))
    obtain ⟨s, hs, hsame⟩ := terminate_text hb
    refine ⟨s, ?_, ?_⟩
    · rw [ofCStr, h₁, ok_bind, hs]
    · rw [hsame, htext, map_bytesOf (strlen_le str)]
  rw [text_iff htext, take_strlen]

theorem substr_exact {len : ℕ} (hlen : len + 16 < 2 ^ 64) :
    (∃ s, substr g str len = .ok s ∧ text s = str.take len) ↔ len ≤ str.length := by
  have hcap : wadd len 1 = len + 1 := wadd_of_lt (by omega)
  have hsize : wsub (len + 1) 1 = len := by rw [wsub_of_le (by omega) (by omega)]; omega
  have htext : ∃ s, substr g str len = .ok s ∧ text s = (List.range len).map (bytesOf str) := by
    obtain ⟨s₁, b, h₁, hb, htext⟩ := store_galloc g (bytesOf str) (len + 1) []
      (Nat.succ_ne_zero len) (Nat.le_refl len)
    obtain ⟨s, hs, hsame⟩ := terminate_text hb
    refine ⟨s, ?_, hsame.trans htext⟩
    unfold substr
    simp only [hcap, hsize]
    rw [h₁, ok_bind, hs]
  rw [text_iff htext]
  constructor
  · intro heq
    have := congrArg List.length heq
    simp only [List.length_map, List.length_range, List.length_take] at this
    omega
  · exact map_bytesOf

theorem copy_text (g : Grow UInt8) (o : Str) : ∃ s, copy g o = .ok s ∧ text s = text o := by
  unfold copy
  split
  case isTrue hzero =>
    exact ⟨empty, rfl, (text_of_size_zero hzero).symm⟩
  case isFalse hpos =>
    obtain ⟨s, -, hs, -, htext⟩ := store_galloc g o.bytes o.size [] hpos (Nat.le_succ o.size)
    exact ⟨s, hs, htext⟩

theorem assign_exact (hs : s.LogInside) (g : Grow UInt8) (o : Str) (self : Bool) :
    (∃ s', assign g s o self = .ok s' ∧ text s' = text o) ↔
      (self = true → ∀ k < o.size, g.block k = o.bytes k) := by
  unfold assign
  rw [free_of_inside hs, ok_bind]
  split
  case isTrue hzero =>
    refine iff_of_true ⟨_, rfl, ?_⟩ fun _ k hk => absurd hk (by omega)
    rw [text_of_size_zero hzero]
    rfl
  case isFalse hpos =>
    obtain ⟨s₁, -, h₁, -, htext⟩ := store_galloc g (if self then g.block else o.bytes) o.size s.log
      hpos (Nat.le_succ o.size)
    rw [text_iff ⟨s₁, h₁, htext⟩, text, List.map_inj_left]
    simp only [List.mem_range]
    cases self <;> simp

theorem move_text (ho : Shape o) (g : Grow UInt8) : ∃ s, move g o = .ok s ∧ text s = text o := by
  have hle := ho.fits
  have hreserve : empty.reserve g o.capacity = .ok ⟨galloc g o.capacity, 0, o.capacity, []⟩ := rfl
  unfold move
  rw [hreserve, ok_bind]
  by_cases hcap : o.capacity = 0
  case pos =>
    have hsize : o.size = 0 := by omega
    have hnull : galloc g o.capacity = none := if_pos hcap
    rw [hnull, store, hsize]
    exact ⟨_, rfl, (text_of_size_zero hsize).symm⟩
  case neg =>
    have hnew : galloc g o.capacity = some ⟨align o.capacity 16, g.block⟩ := if_neg hcap
    rw [hnew]
    refine ⟨_, rfl, text_eq rfl fun i hi => ?_⟩
    rw [bytes_some rfl, store_bytes, if_pos (by omega)]
    rfl

/-! ## Growing -/

theorem reserve_stuck (hnull : s.data = none → s.size = 0)
    (h : Stuck s.blockLen s.size cap g) : s.reserve g cap = .error .endless := by
  obtain ⟨hlen, hmove, hsize⟩ := h
  have hmax : (if cap < s.size then s.size else cap) = max cap s.size := by
    split <;> omega
  unfold reserve
  rw [hmax]
  dsimp only
  split
  case h_1 hnone =>
    have := hnull hnone
    omega
  case h_2 b hb =>
    have hblock : s.blockLen = b.len := by rw [blockLen, hb]; rfl
    rw [if_neg (by omega), hmove, if_neg Bool.false_ne_true, if_pos hsize]

theorem reserve_ok (hnull : s.data = none → s.size = 0) (hlog : s.LogInside)
    (hfit : max cap s.size + 15 < 2 ^ 64) (h : ¬ Stuck s.blockLen s.size cap g) :
    ∃ s', s.reserve g cap = .ok s' ∧ Reserved s cap s' := by
  suffices hok : ∃ s', s.reserve g cap = .ok s' by
    obtain ⟨s', hs'⟩ := hok
    exact ⟨s', hs', reserve_reserved hnull hfit hs'⟩
  have hmax : (if cap < s.size then s.size else cap) = max cap s.size := by
    split <;> omega
  unfold reserve
  rw [hmax]
  dsimp only
  split
  case h_1 => exact ⟨_, rfl⟩
  case h_2 b hb =>
    have hblock : s.blockLen = b.len := by rw [blockLen, hb]; rfl
    split
    case isTrue => exact ⟨_, rfl⟩
    case isFalse hlen =>
      split
      case isTrue => exact ⟨_, rfl⟩
      case isFalse hmove =>
        have hsize : ¬ 2 ^ 32 ≤ s.size := fun hsize =>
          h ⟨by omega, Bool.eq_false_iff.mpr hmove, hsize⟩
        rw [if_neg hsize]
        have hpos : max cap s.size ≠ 0 := by
          intro hzero
          rw [hzero] at hlen
          exact hlen (Nat.zero_le _)
        have hnew : galloc g (max cap s.size) = some ⟨align (max cap s.size) 16, g.block⟩ :=
          if_neg hpos
        rw [free_of_inside hlog, ok_bind, hnew]
        exact ⟨_, rfl⟩

/-- Room for `m` characters, `m` written at the end, and a terminator. -/
theorem append_text (hs : Proper s) {m : ℕ} (hcap : s.size + m ≤ cap) (hpos : 0 < cap)
    (hfit : cap + 15 < 2 ^ 64) (hfree : ¬ Stuck s.blockLen s.size cap g) (src : ℕ → UInt8) :
    ∃ s₁ s₂ s', s.reserve g cap = .ok s₁ ∧ s₁.store s₁.size src m = .ok s₂ ∧
      terminate { s₂ with size := wadd s₂.size m } = .ok s' ∧
      text s' = text s ++ (List.range m).map src := by
  obtain ⟨s₁, h₁, hres⟩ := reserve_ok hs.null hs.inside (by omega) hfree
  obtain ⟨b, hb, hbytes, -⟩ := hres.block (by omega)
  have hsize := hres.size
  have hadd : wadd s₁.size m = s.size + m := by rw [hsize, wadd_of_lt (by omega)]
  obtain ⟨s₂, h₂⟩ : ∃ s₂, s₁.store s₁.size src m = .ok s₂ := by
    rw [store, hb]
    exact ⟨_, rfl⟩
  obtain rfl := store_eq_ok hb h₂
  obtain ⟨s', h', htext⟩ := terminate_text
    (s := { s₁ with data := some (b.store s₁.size src m), size := wadd s₁.size m,
                    log := s₁.log ++ [⟨s₁.size, m, b.len⟩] }) rfl
  refine ⟨s₁, _, s', h₁, h₂, h', htext.trans (text_append hadd (fun i hi => ?_) fun i hi => ?_)⟩
  · rw [bytes_some rfl, store_bytes, if_neg (by omega), hbytes i hi]
  · rw [bytes_some rfl, store_bytes, if_pos (by omega), hsize, Nat.add_sub_cancel_left]

theorem appendCStr_exact (hs : Proper s) (hfit : s.size + 2 ^ 8 + 15 < 2 ^ 64) :
    (∃ s', appendCStr g s str = .ok s' ∧ text s' = text s ++ str) ↔
      str.length < 2 ^ 8 ∧ ¬ Stuck s.blockLen s.size (s.size + strlen str + 1) g := by
  have hlt : strlen str < 2 ^ 8 := Nat.mod_lt _ (by decide)
  have hcap : wadd (wadd s.size (strlen str)) 1 = s.size + strlen str + 1 := by
    rw [wadd_assoc, wadd_of_lt (by omega)]
    rfl
  by_cases hstuck : Stuck s.blockLen s.size (s.size + strlen str + 1) g
  case pos =>
    refine iff_of_false ?_ fun h => h.2 hstuck
    rintro ⟨s', h, -⟩
    rw [appendCStr, hcap, reserve_stuck hs.null hstuck] at h
    cases h
  case neg =>
    obtain ⟨s₁, s₂, s', h₁, h₂, h', htext⟩ := append_text hs (Nat.le_add_right _ 1)
      (Nat.succ_pos _) (by omega) hstuck (bytesOf str)
    have hok : appendCStr g s str = .ok s' := by
      rw [appendCStr, hcap, h₁, ok_bind, h₂, ok_bind, h']
    rw [map_bytesOf (strlen_le str)] at htext
    rw [text_iff ⟨s', hok, htext⟩, List.append_cancel_left_eq, take_strlen, and_iff_left hstuck]

theorem appendChar_exact (hs : Proper s) (hfit : s.size + 16 < 2 ^ 64) (c : UInt8) :
    (∃ s', appendChar g s c = .ok s' ∧ text s' = text s ++ [c]) ↔
      ¬ Stuck s.blockLen s.size (s.size + 1) g := by
  have hcap : wadd s.size 1 = s.size + 1 := wadd_of_lt (by omega)
  by_cases hstuck : Stuck s.blockLen s.size (s.size + 1) g
  case pos =>
    refine iff_of_false ?_ fun h => h hstuck
    rintro ⟨s', h, -⟩
    rw [appendChar, hcap, reserve_stuck hs.null hstuck] at h
    cases h
  case neg =>
    obtain ⟨s₁, s₂, s', h₁, h₂, h', htext⟩ := append_text hs (Nat.le_refl _)
      (Nat.succ_pos _) (by omega) hstuck fun _ => c
    refine iff_of_true ⟨s', ?_, htext⟩ hstuck
    rw [appendChar, hcap, h₁, ok_bind, h₂, ok_bind, h']

/-- The old characters up to `n`, and zeros up to `n`. -/
theorem vecResize_text (hs : Proper s) (hfit : max n s.size + 15 < 2 ^ 64)
    (hfree : ¬ Stuck s.blockLen s.size n g) :
    ∃ s₁, vecResize g s n = .ok s₁ ∧
      (0 < n → s₁.blockLen = max (align (max n s.size) 16) s.blockLen) ∧
      text s₁ = (text s).take n ++ List.replicate (n - s.size) 0 := by
  obtain ⟨s₀, h₀, hres⟩ := reserve_ok hs.null hs.inside hfit hfree
  have hsize := hres.size
  unfold vecResize
  rw [h₀, ok_bind]
  by_cases hzero : max n s.size = 0
  case pos =>
    have hn : n = 0 := by omega
    have hsub : n - s₀.size = 0 := by omega
    rw [hsub]
    obtain ⟨s₂, h₂⟩ : ∃ s₂, s₀.store s₀.size (fun _ => 0) 0 = .ok s₂ := by
      unfold store
      split
      case h_1 => exact ⟨_, if_pos rfl⟩
      case h_2 => exact ⟨_, rfl⟩
    rw [h₂]
    refine ⟨{ s₂ with size := n }, rfl, fun hpos => absurd hpos (by omega), ?_⟩
    rw [text_of_size_zero hn, hn]
    simp
  case neg =>
    obtain ⟨b, hb, hbytes, hlen⟩ := hres.block (Nat.pos_of_ne_zero hzero)
    rw [store, hb]
    refine ⟨_, rfl, fun _ => hlen, ?_⟩
    by_cases hle : n ≤ s.size
    case pos =>
      rw [Nat.sub_eq_zero_of_le hle, List.replicate_zero, List.append_nil, text.eq_1 s,
        ← List.map_take, List.take_range, Nat.min_eq_left hle]
      refine text_eq rfl fun i hi => ?_
      rw [bytes_some rfl, store_bytes, if_neg (by omega), hbytes i (by omega)]
    case neg =>
      have hlong : (text s).take n = text s := by
        rw [List.take_eq_self_iff, length_text]
        omega
      have hzeros : List.replicate (n - s.size) 0 =
          (List.range (n - s.size)).map fun _ => (0 : UInt8) := by simp
      rw [hlong, hzeros]
      refine text_append (by simp only []; omega) (fun i hi => ?_) fun i hi => ?_
      · rw [bytes_some rfl, store_bytes, if_neg (by omega), hbytes i hi]
      · rw [bytes_some rfl, store_bytes, if_pos (by omega)]

theorem resize_exact (hs : Proper s) {g' : Grow UInt8} (hfit : max n s.size + 16 < 2 ^ 64) :
    (∃ s', resize g g' s n = .ok s' ∧
      text s' = (text s).take n ++ List.replicate (n - s.size) 0) ↔
      ¬ Stuck s.blockLen s.size n g ∧
        ¬ Stuck (max (align (max n s.size) 16) s.blockLen) n (n + 1) g' := by
  have hcap : wadd n 1 = n + 1 := wadd_of_lt (by omega)
  unfold resize
  rw [hcap]
  by_cases hstuck : Stuck s.blockLen s.size n g
  case pos =>
    refine iff_of_false ?_ fun h => h.1 hstuck
    rintro ⟨s', h, -⟩
    rw [vecResize, reserve_stuck hs.null hstuck] at h
    cases h
  case neg =>
    obtain ⟨s₁, h₁, hlen, htext⟩ := vecResize_text hs (by omega) hstuck
    obtain ⟨hlog, hsize, hnull⟩ := vecResize_spec hs (by omega) h₁
    -- without characters nothing is stuck, whatever the block is
    have hiff : Stuck s₁.blockLen s₁.size (n + 1) g' ↔
        Stuck (max (align (max n s.size) 16) s.blockLen) n (n + 1) g' := by
      rw [hsize]
      by_cases hn : 0 < n
      · rw [hlen hn]
      · exact iff_of_false (fun h => by have := h.2.2; omega) fun h => by have := h.2.2; omega
    rw [h₁, ok_bind, and_iff_right hstuck, ← hiff]
    by_cases hstuck' : Stuck s₁.blockLen s₁.size (n + 1) g'
    case pos =>
      refine iff_of_false ?_ fun h => h hstuck'
      rintro ⟨s', h, -⟩
      rw [reserve_stuck hnull hstuck'] at h
      cases h
    case neg =>
      obtain ⟨s₂, h₂, hres⟩ := reserve_ok hnull hlog (by omega) hstuck'
      obtain ⟨b, hb, hbytes, -⟩ := hres.block (by omega)
      obtain ⟨s', h', hsame⟩ := terminate_text hb
      refine iff_of_true ⟨s', ?_, ?_⟩ hstuck'
      · rw [h₂, ok_bind, h']
      · rw [hsame, ← htext]
        exact text_eq hres.size fun i hi => (bytes_some hb i).trans (hbytes i hi)

end

/-! ## Sequences of operations -/

/-- The C strings among the arguments hold no zero. -/
def Op.CText : Op → Prop
  | .ofCStr _ str _ => 0 ∉ str
  | .substr _ str _ _ => 0 ∉ str
  | .appendCStr _ str _ => 0 ∉ str
  | .default _ | .copy .. | .move .. | .assign .. | .moveAssign .. | .appendChar .. | .resize .. =>
    True

instance : DecidablePred Op.CText
  | .ofCStr .. | .substr .. | .appendCStr .. => inferInstanceAs (Decidable (_ ∉ _))
  | .default _ | .copy .. | .move .. | .assign .. | .moveAssign .. | .appendChar .. | .resize .. =>
    inferInstanceAs (Decidable True)

/-- The texts after a history of operations. -/
def meanings (h : List (Op × Unit)) : ℕ → List UInt8 :=
  h.foldl (fun t x => x.1.meaning t) fun _ => []

theorem meanings_snoc (h : List (Op × Unit)) (op : Op) :
    meanings (h ++ [(op, ())]) = op.meaning (meanings h) := by
  rw [meanings, List.foldl_append]
  rfl

section

variable {e e' : Env}

/-- One string is replaced by the result of an operation. -/
theorem update_exact {x : Except Halt Str} {i : ℕ} {w : List UInt8} :
    (∃ e', (do return ((), update e i (← x)) : Except Halt (Unit × Env)) = .ok ((), e') ∧
      ∀ k, text (e' k) = update (fun k => text (e k)) i w k) ↔
      ∃ s, x = .ok s ∧ text s = w := by
  constructor
  · rintro ⟨e', h, htext⟩
    obtain ⟨s, rfl, h⟩ := bind_eq_ok.mp h
    obtain rfl := (Prod.mk.inj (Except.ok.inj h)).2
    have hi := htext i
    rw [Function.update_self, Function.update_self] at hi
    exact ⟨s, rfl, hi⟩
  · rintro ⟨s, rfl, rfl⟩
    refine ⟨update e i s, rfl, fun k => ?_⟩
    by_cases hk : k = i
    · rw [hk, Function.update_self, Function.update_self]
    · rw [Function.update_of_ne hk, Function.update_of_ne hk]

theorem step_exact (he : ∀ i, Proper (e i)) {op : Op} (hfit : Fits e op) :
    (∃ e', step e op = .ok ((), e') ∧ ∀ k, text (e' k) = op.meaning (fun k => text (e k)) k) ↔
      Exact e op := by
  cases op with
  | default i => exact (update_exact (x := .ok empty)).trans (iff_of_true ⟨_, rfl, rfl⟩ trivial)
  | ofCStr i str g => exact update_exact.trans (ofCStr_exact g str)
  | substr i str len g => exact update_exact.trans (substr_exact hfit)
  | copy i j g => exact update_exact.trans (iff_of_true (copy_text g (e j)) trivial)
  | move i j g => exact update_exact.trans (iff_of_true (move_text (he j).toShape g) trivial)
  | assign i j g =>
    refine update_exact.trans ((assign_exact (he i).inside g (e j) (i == j)).trans ?_)
    rw [beq_iff_eq]
    refine forall_congr' fun hij => ?_
    rw [hij]
  | moveAssign i j =>
    have hassign : moveAssign (e i) (e j) = .ok ({ e j with log := (e i).log ++ (e j).log },
        { e j with data := none, size := 0, capacity := 0 }) := by
      rw [moveAssign, free_of_inside (he i).inside]
      rfl
    rw [step, hassign]
    refine iff_of_true ⟨_, rfl, fun k => ?_⟩ trivial
    by_cases hj : k = j
    · rw [hj, Function.update_self, Op.meaning, Function.update_self]
      rfl
    · rw [Function.update_of_ne hj, Op.meaning, Function.update_of_ne hj]
      by_cases hi : k = i
      · rw [hi, Function.update_self, Function.update_self]
        rfl
      · rw [Function.update_of_ne hi, Function.update_of_ne hi]
  | appendCStr i str g => exact update_exact.trans (appendCStr_exact (he i) hfit)
  | appendChar i c g => exact update_exact.trans (appendChar_exact (he i) hfit c)
  | resize i n g g' =>
    refine Iff.trans ?_ (resize_exact (he i) hfit)
    rw [← update_exact, Op.meaning, length_text]
    rfl

/-- **Contents.** In every run whose steps are exact and write only to their own blocks, each
string has the text and the size that the same operations give on lists of bytes, views and
comparisons see this text, and a further step does what it means if and only if it is exact. -/
theorem strings_hold_text {h : List (Op × Unit)}
    (hrun : Runs step (fun e op => op.CText ∧ Fits e op ∧ Careful e op ∧ Exact e op)
      (fun _ => empty) h e) :
    (∀ i, text (e i) = meanings h i ∧ (e i).size = (meanings h i).length ∧
      (view (e i)).text = meanings h i) ∧
    (∀ i j, (e i).equal (e j) = decide (meanings h i = meanings h j)) ∧
    (∀ i mem str, CString mem str → 0 ∉ meanings h i →
      (view (e i)).equal mem = decide (meanings h i = str)) ∧
    ∀ op, op.CText → Fits e op →
      ((∃ e', step e op = .ok ((), e') ∧ ∀ i, text (e' i) = op.meaning (meanings h) i) ↔
        Exact e op) := by
  have hinv : (∀ i, Proper (e i)) ∧ (fun i => text (e i)) = meanings h := by
    refine hrun.invariant (P := fun h e => (∀ i, Proper (e i)) ∧ (fun i => text (e i)) = meanings h)
      ⟨fun _ => empty_proper, rfl⟩ ?_
    rintro h e op ⟨⟩ e' ⟨hproper, htext⟩ ⟨-, hfit, hcareful, hexact⟩ hstep
    obtain ⟨hshape, hiff⟩ := step_spec hproper hfit hstep
    refine ⟨fun i => { hiff.mpr hcareful i, hshape i with }, ?_⟩
    obtain ⟨e'', hstep', hmeaning⟩ := (step_exact hproper hfit).mpr hexact
    obtain rfl := (Prod.mk.inj (Except.ok.inj (hstep.symm.trans hstep'))).2
    rw [meanings_snoc, ← htext]
    exact funext hmeaning
  obtain ⟨hproper, htext⟩ := hinv
  have hi : ∀ i, text (e i) = meanings h i := fun i => congrFun htext i
  refine ⟨fun i => ⟨hi i, ?_, hi i⟩, fun i j => ?_, fun i mem str hstr hzero => ?_,
    fun op _ hfit => ?_⟩
  · rw [← hi i, length_text]
  · rw [equal_eq, hi i, hi j]
  · rw [StringView.equal, view, hi i]
    exact viewEq_eq hstr hzero
  · rw [← htext]
    exact step_exact hproper hfit

end

/-- The operations of the boot test on shorter literals, and a copy compared with them. -/
theorem strings_hold_text_test :
    ∃ e : Env, text (e 0) = [104, 105, 116, 105, 112] ∧ (e 0).equal (e 1) = true := by
  have hrun : (runFrom (fun e op => op.CText ∧ Fits e op ∧ Careful e op ∧ Exact e op)
      [.ofCStr 0 [104, 105] (fresh 255), .appendChar 0 116 (fresh 255),
        .appendCStr 0 [105, 112] (fresh 255), .substr 1 [104, 105, 116, 105, 112, 33] 5 (fresh 255),
        .copy 2 0 (fresh 255)]).map
      (fun r => (meanings r.1 0, decide (meanings r.1 0 = meanings r.1 1))) =
        some ([104, 105, 116, 105, 112], true) := by
    decide
  obtain ⟨⟨h, e⟩, hr, hvals⟩ := Option.map_eq_some_iff.mp hrun
  obtain ⟨htext, hsame⟩ := Prod.mk.inj hvals
  obtain ⟨hall, hequal, -⟩ := strings_hold_text ((Runs.nil _).replay hr)
  exact ⟨e, (hall 0).1.trans htext, (hequal 0 1).trans hsame⟩

/-- A C string of 256 letters makes an empty string, and one of 257 a single letter. -/
theorem long_text_lost :
    (ofCStr (fresh 0) (letters 256)).toOption.map text = some [] ∧
    (ofCStr (fresh 0) (letters 257)).toOption.map text = some (letters 1) ∧
    (runFrom (fun _ _ => True) [.ofCStr 0 (letters 3) (fresh 0),
      .appendCStr 0 (letters 256) (fresh 0)]).map (fun r => text (r.2 0)) = some (letters 3) := by
  decide +kernel

end Str

end NeptunOS
