import NeptunOS.Lib.Ring
import NeptunOS.Lib.Stepwise
import NeptunOS.Storage.LinkedList

/-!
# The ring behind `LinkedList` and its end marker

`Represents` ties a list to its contents: the links form a ring in the order of the
elements, and the last one carries the `last` flag, unless the flag has been lost.
It is lost when `remove` takes the last link of several, because the flag is not
passed on to the link before it; it comes back when the list has become empty.

`end_marker_iff`: after any run, the list has its end marker, accepts `push_back` and
can be iterated over if and only if the flag has not been lost.
-/

namespace NeptunOS.LinkedList

open Function Stepwise

variable {α : Type}

/-- What a list holds: links with their data, in order, and whether the last one is
marked. -/
structure Contents (α : Type) where
  elems : List (ℕ × α)
  marked : Bool
deriving DecidableEq, Repr

namespace Contents

def nil : Contents α := ⟨[], true⟩

/-- The links in order. -/
def addrs (c : Contents α) : List ℕ := c.elems.map Prod.fst

/-- `push_back`, which needs the mark and passes it on. -/
def pushBack (c : Contents α) (i : ℕ) (x : α) : Contents α := ⟨c.elems ++ [(i, x)], true⟩

/-- `push_front`. -/
def pushFront (c : Contents α) (i : ℕ) (x : α) : Contents α :=
  ⟨(i, x) :: c.elems, c.marked || c.elems.isEmpty⟩

/-- `remove`: the mark goes with the last link. -/
def remove (c : Contents α) (i : ℕ) : Contents α :=
  ⟨c.elems.filter (·.1 ≠ i), c.marked && c.addrs.getLast? ≠ some i⟩

/-- The list is empty, or its last link is marked. -/
def Kept (c : Contents α) : Prop := c.elems = [] ∨ c.marked = true

instance (c : Contents α) : Decidable c.Kept :=
  decidable_of_iff (c.elems.isEmpty ∨ c.marked = true) (by simp [Kept])

end Contents

/-! ## The representation -/

/-- `next` of a live link. -/
def nextOf (l : LinkedList α) (a : ℕ) : Option ℕ := (l.links a).bind Link.next

/-- `prev` of a live link. -/
def prevOf (l : LinkedList α) (a : ℕ) : Option ℕ := (l.links a).bind Link.prev

/-- The list holds the given contents. -/
structure Represents (l : LinkedList α) (c : Contents α) : Prop where
  first : l.first = c.addrs.head?
  size : l.size = c.elems.length
  ring : Ring l.nextOf l.prevOf c.addrs
  nodup : c.addrs.Nodup
  old : ∀ a ∈ c.addrs, a < l.fresh
  live : ∀ a k, l.links a = some k → a ∈ c.addrs
  link : ∀ a x, (a, x) ∈ c.elems → ∃ k, l.links a = some k ∧ k.data = x ∧
    (k.last = true ↔ c.marked = true ∧ c.addrs.getLast? = some a)

theorem empty_represents : Represents (empty : LinkedList α) .nil where
  first := rfl
  size := rfl
  ring := Cycle.Chain.nil _
  nodup := List.nodup_nil
  old a ha := by cases ha
  live a k hk := by cases hk
  link a x hx := by cases hx

section Represents

variable {l l' : LinkedList α} {c : Contents α} {i : ℕ} {x : α}

section

variable (h : Represents l c)

include h

theorem Represents.fresh_notMem : l.fresh ∉ c.addrs := fun hin => Nat.lt_irrefl _ (h.old _ hin)

/-- The link of a node of the ring, with its neighbours. -/
theorem Represents.link_of_mem (hi : i ∈ c.addrs) :
    ∃ k, l.links i = some k ∧ k.next = l.nextOf i ∧ k.prev = l.prevOf i ∧
      (k.last = true ↔ c.marked = true ∧ c.addrs.getLast? = some i) := by
  obtain ⟨⟨_, x⟩, hx, rfl⟩ := List.mem_map.mp hi
  obtain ⟨k, hk, _, hlast⟩ := h.link _ x hx
  exact ⟨k, hk, by simp [nextOf, hk], by simp [prevOf, hk], hlast⟩

theorem size_step (hfit : l.size + 1 < 2 ^ 64) : wadd l.size 1 = c.elems.length + 1 := by
  rw [wadd_of_lt hfit, h.size]

/-- The first link of a list, given the ends of the ring. -/
theorem Represents.ends (hne : c.addrs ≠ []) :
    l.first = some (c.addrs.head hne) ∧ l.prevOf (c.addrs.head hne) =
      some (c.addrs.getLast hne) := by
  refine ⟨by rw [h.first, List.head?_eq_some_head hne], ?_⟩
  exact ((Ring.iff_closed hne).mp h.ring).1.2

end

/-! ## Insertion -/

/-- The links after a new one has been put between the last and the first one; `mark`
gives the new flags of the others. -/
structure Spliced (l l' : LinkedList α) (i e f : ℕ) (x : α) (new : Bool)
    (mark : ℕ → Bool → Bool) : Prop where
  new : l'.links i = some ⟨some e, some f, x, new⟩
  old : ∀ a k, a ≠ i → l.links a = some k → l'.links a = some ⟨
    if a = f then some i else k.prev, if a = e then some i else k.next, k.data,
    mark a k.last⟩
  dead : ∀ a, a ≠ i → l.links a = none → l'.links a = none
  fresh : l'.fresh = i + 1

variable {e f : ℕ} {new : Bool} {mark : ℕ → Bool → Bool}

section

variable (h : Represents l c)

include h

theorem Represents.splice_ring (hne : c.addrs ≠ [])
    (hs : Spliced l l' l.fresh (c.addrs.getLast hne) (c.addrs.head hne) x new mark) :
    Ring l'.nextOf l'.prevOf (l.fresh :: c.addrs : List ℕ) := by
  have hpast : ∀ a ∈ c.addrs, a ≠ l.fresh := fun a ha heq => h.fresh_notMem (heq ▸ ha)
  -- the two pointers of an old link
  have hold : ∀ a ∈ c.addrs,
      l'.nextOf a = (if a = c.addrs.getLast hne then some l.fresh else l.nextOf a) ∧
      l'.prevOf a = (if a = c.addrs.head hne then some l.fresh else l.prevOf a) := by
    intro a ha
    obtain ⟨k, hk, hn, hp, _⟩ := h.link_of_mem ha
    rw [← hn, ← hp, nextOf, prevOf, hs.old a k (hpast a ha) hk]
    exact ⟨rfl, rfl⟩
  refine Ring.insert hne h.ring h.nodup ?_ ?_ ?_ ?_ ?_
  · rw [nextOf, prevOf, hs.new]
    exact ⟨rfl, rfl⟩
  · rw [(hold _ (List.getLast_mem hne)).1, if_pos rfl]
  · rw [(hold _ (List.head_mem hne)).2, if_pos rfl]
  · intro a ha hane
    rw [(hold a ha).1, if_neg hane]
  · intro a ha hane
    rw [(hold a ha).2, if_neg hane]

theorem Represents.splice_live (hs : Spliced l l' l.fresh e f x new mark) {a : ℕ} {k : Link α}
    (hk : l'.links a = some k) : a = l.fresh ∨ a ∈ c.addrs := by
  by_cases ha : a = l.fresh
  · exact .inl ha
  · cases hold : l.links a with
    | none => rw [hs.dead a ha hold] at hk; cases hk
    | some k' => exact .inr (h.live a k' hold)

theorem Represents.splice_old
    (hs : Spliced l l' l.fresh e f x new mark) {a : ℕ} (ha : a = l.fresh ∨ a ∈ c.addrs) :
    a < l'.fresh := by
  rw [hs.fresh]
  rcases ha with rfl | ha
  · exact Nat.lt_succ_self _
  · exact Nat.lt_succ_of_lt (h.old a ha)

/-- The pointers that an insertion starts from. -/
theorem Represents.enter (hne : c.addrs ≠ []) :
    ∃ kf ke, l.first = some (c.addrs.head hne) ∧ l.links (c.addrs.head hne) = some kf ∧
      kf.prev = some (c.addrs.getLast hne) ∧ l.links (c.addrs.getLast hne) = some ke ∧
      (ke.last = true ↔ c.marked = true) := by
  obtain ⟨hfirst, hprev⟩ := h.ends hne
  obtain ⟨kf, hkf, _, hp, _⟩ := h.link_of_mem (List.head_mem hne)
  obtain ⟨ke, hke, _, _, hlast⟩ := h.link_of_mem (List.getLast_mem hne)
  refine ⟨kf, ke, hfirst, hkf, hp.trans hprev, hke, ?_⟩
  rw [hlast, List.getLast?_eq_some_getLast hne]
  simp

end

theorem addrs_ne_nil (hne : c.elems ≠ []) : c.addrs ≠ [] := by
  simpa [Contents.addrs] using hne

/-- The first link of a list points to itself and is marked. -/
theorem Represents.first_link (h : Represents l c) (hempty : c.elems = [])
    (hfit : l.size + 1 < 2 ^ 64) (x : α) :
    Represents
      { l.newLink ⟨some l.fresh, some l.fresh, x, true⟩ with
        first := some l.fresh, size := wadd l.size 1 } ⟨[(l.fresh, x)], true⟩ := by
  have haddrs : c.addrs = [] := by rw [Contents.addrs, hempty]; rfl
  have hself : update l.links l.fresh (some (⟨some l.fresh, some l.fresh, x, true⟩ : Link α))
      l.fresh = some ⟨some l.fresh, some l.fresh, x, true⟩ := update_self ..
  constructor
  case first => rfl
  case size =>
    show wadd l.size 1 = 1
    rw [size_step h hfit, hempty]
    rfl
  case ring =>
    refine (Cycle.chain_singleton _ _).mpr ⟨?_, ?_⟩
    · simp [nextOf, newLink]
    · simp [prevOf, newLink]
  case nodup => exact List.nodup_singleton _
  case old =>
    intro a ha
    obtain rfl := List.mem_singleton.mp ha
    exact Nat.lt_succ_self _
  case live =>
    intro a k hk
    by_cases ha : a = l.fresh
    · exact List.mem_singleton.mpr ha
    · change update l.links l.fresh _ a = some k at hk
      rw [update_of_ne ha] at hk
      have hin := h.live a k hk
      rw [haddrs] at hin
      cases hin
  case link =>
    intro a y hy
    obtain ⟨rfl, rfl⟩ := Prod.mk.inj (List.mem_singleton.mp hy)
    exact ⟨_, hself, rfl, by simp [Contents.addrs]⟩

theorem Represents.first_none (h : Represents l c) (hempty : c.elems = []) : l.first = none := by
  rw [h.first, Contents.addrs, hempty]
  rfl

/-- The edit of one live link. -/
def modify (l : LinkedList α) (i : ℕ) (g : Link α → Link α) : LinkedList α :=
  { l with links := update l.links i ((l.links i).map g) }

/-- A new link between `e` and `f`. -/
def splice (l : LinkedList α) (e f : ℕ) (x : α) : LinkedList α :=
  ((l.newLink ⟨some e, some f, x, false⟩).modify e fun k =>
    { k with next := some l.fresh }).modify f fun k => { k with prev := some l.fresh }

theorem splice_spliced (he : l.fresh ≠ e) (hf : l.fresh ≠ f)
    (hlinks : l'.links = (l.splice e f x).links) (hfresh : l'.fresh = l.fresh + 1) :
    Spliced l l' l.fresh e f x false (fun _ b => b) where
  new := by simp [hlinks, splice, modify, newLink, he, hf]
  old a k ha hk := by
    by_cases haf : a = f <;> by_cases hae : a = e <;>
      simp_all [splice, modify, newLink, update_apply]
  dead a ha hk := by
    by_cases haf : a = f <;> by_cases hae : a = e <;>
      simp_all [splice, modify, newLink, update_apply]
  fresh := hfresh

/-- `push_front` always succeeds. -/
theorem Represents.pushFront (h : Represents l c) (hfit : l.size + 1 < 2 ^ 64) (x : α) :
    ∃ l', l.pushFront x = .ok (l.fresh, l') ∧ Represents l' (c.pushFront l.fresh x) := by
  by_cases hempty : c.elems = []
  case pos =>
    refine ⟨_, by rw [LinkedList.pushFront, h.first_none hempty], ?_⟩
    have hcontents : c.pushFront l.fresh x = ⟨[(l.fresh, x)], true⟩ := by
      simp [Contents.pushFront, hempty]
    rw [hcontents]
    exact h.first_link hempty hfit x
  case neg =>
    have hne := addrs_ne_nil hempty
    obtain ⟨kf, ke, hfirst, hkf, hprev, hke, _⟩ := h.enter hne
    set f := c.addrs.head hne with hf
    set e := c.addrs.getLast hne with he
    have hnew : ∀ a ∈ c.addrs, l.fresh ≠ a := fun a ha heq => h.fresh_notMem (heq ▸ ha)
    have hfe : l.fresh ≠ f ∧ l.fresh ≠ e :=
      ⟨hnew _ (List.head_mem hne), hnew _ (List.getLast_mem hne)⟩
    set l' := { l.splice e f x with first := some l.fresh, size := wadd l.size 1 } with hl'
    have hs : Spliced l l' l.fresh e f x false (fun _ b => b) := splice_spliced hfe.2 hfe.1 rfl rfl
    refine ⟨l', ?_, ?_⟩
    · simp only [LinkedList.pushFront, hfirst]
      refine bind_eq_ok.mpr ⟨kf, deref_some hkf, ?_⟩
      rw [hprev]
      rfl
    have haddrs : (c.pushFront l.fresh x).addrs = l.fresh :: c.addrs := rfl
    constructor
    case first => rfl
    case size => exact size_step h hfit
    case ring => exact h.splice_ring hne hs
    case nodup => exact List.nodup_cons.mpr ⟨h.fresh_notMem, h.nodup⟩
    case old => exact fun a ha => h.splice_old hs (List.mem_cons.mp ha)
    case live => exact fun a k hk => List.mem_cons.mpr (h.splice_live hs hk)
    case link =>
      have hmarked : (c.pushFront l.fresh x).marked = c.marked := by
        simp [Contents.pushFront, hempty]
      have hend : (l.fresh :: c.addrs).getLast? = c.addrs.getLast? := by
        rw [List.getLast?_cons, List.getLast?_eq_some_getLast hne]
        rfl
      rw [haddrs, hmarked, hend]
      intro a y hy
      rcases List.mem_cons.mp hy with hy | hy
      · obtain ⟨rfl, rfl⟩ := Prod.mk.inj hy
        refine ⟨_, hs.new, rfl, ?_⟩
        simp only [Bool.false_eq_true, false_iff, not_and]
        exact fun _ hlast => h.fresh_notMem (List.mem_of_getLast? hlast)
      · obtain ⟨k, hk, hdata, hlast⟩ := h.link a y hy
        have ha : a ≠ l.fresh := (hnew a (List.mem_map_of_mem hy)).symm
        exact ⟨_, hs.old a k ha hk, hdata, hlast⟩

/-- A new link between `e` and `f` that takes the mark over from `e`. -/
def spliceMarked (l : LinkedList α) (e f : ℕ) (x : α) : LinkedList α :=
  ((((l.newLink ⟨some e, some f, x, false⟩).modify e fun k =>
    { k with next := some l.fresh }).modify e fun k => { k with last := false }).modify f
      fun k => { k with prev := some l.fresh }).modify l.fresh fun k => { k with last := true }

theorem spliceMarked_spliced (he : l.fresh ≠ e) (hf : l.fresh ≠ f)
    (hlinks : l'.links = (l.spliceMarked e f x).links) (hfresh : l'.fresh = l.fresh + 1) :
    Spliced l l' l.fresh e f x true (fun a b => if a = e then false else b) where
  new := by simp [hlinks, spliceMarked, modify, newLink, he, hf]
  old a k ha hk := by
    by_cases haf : a = f <;> by_cases hae : a = e <;>
      simp_all [spliceMarked, modify, newLink, update_apply]
  dead a ha hk := by
    by_cases haf : a = f <;> by_cases hae : a = e <;>
      simp_all [spliceMarked, modify, newLink, update_apply]
  fresh := hfresh

/-- What `push_back` does up to its assertion. -/
theorem Represents.pushBack_eq (h : Represents l c) (hempty : c.elems ≠ []) (x : α) :
    ∃ e f, l.first = some f ∧ c.addrs.getLast? = some e ∧ c.addrs.head? = some f ∧
      l.pushBack x = if c.marked = true then
        .ok (l.fresh, { l.spliceMarked e f x with size := wadd l.size 1 })
      else .error (.assertion "first->prev->last") := by
  have hne := addrs_ne_nil hempty
  obtain ⟨kf, ke, hfirst, hkf, hprev, hke, hmark⟩ := h.enter hne
  refine ⟨_, _, hfirst, List.getLast?_eq_some_getLast hne, List.head?_eq_some_head hne, ?_⟩
  have hnew : l.fresh ≠ c.addrs.getLast hne := fun heq =>
    h.fresh_notMem (heq ▸ List.getLast_mem hne)
  simp only [LinkedList.pushBack, hfirst]
  have hlink : ((l.newLink ⟨some (c.addrs.getLast hne), some (c.addrs.head hne), x,
      false⟩).modify (c.addrs.getLast hne) fun k => { k with next := some l.fresh }).links
        (c.addrs.getLast hne) = some { ke with next := some l.fresh } := by
    simp [modify, newLink, hnew.symm, hke]
  have hderef := deref_some hlink
  rw [deref_some hkf, ok_bind, hprev]
  simp only [setNext, ok_bind]
  unfold modify at hderef
  rw [hderef, ok_bind]
  by_cases hm : c.marked = true
  · rw [if_neg (not_not.mpr (hmark.mpr hm)), if_pos hm]
    rfl
  · rw [if_pos (mt hmark.mp hm), if_neg hm]

/-- `push_back` on an empty list, or on one that has its mark. -/
theorem Represents.pushBack (h : Represents l c) (hfit : l.size + 1 < 2 ^ 64)
    (hkept : c.Kept) (x : α) :
    ∃ l', l.pushBack x = .ok (l.fresh, l') ∧ Represents l' (c.pushBack l.fresh x) := by
  by_cases hempty : c.elems = []
  case pos =>
    refine ⟨_, by rw [LinkedList.pushBack, h.first_none hempty], ?_⟩
    have hcontents : c.pushBack l.fresh x = ⟨[(l.fresh, x)], true⟩ := by
      simp [Contents.pushBack, hempty]
    rw [hcontents]
    exact h.first_link hempty hfit x
  case neg =>
    have hmarked := hkept.resolve_left hempty
    have hne := addrs_ne_nil hempty
    obtain ⟨e, f, hfirst, he, hf, hrun⟩ := h.pushBack_eq hempty x
    rw [if_pos hmarked] at hrun
    rw [List.getLast?_eq_some_getLast hne] at he
    rw [List.head?_eq_some_head hne] at hf
    obtain rfl := Option.some.inj he
    obtain rfl := Option.some.inj hf
    have hnew : ∀ a ∈ c.addrs, l.fresh ≠ a := fun a ha heq => h.fresh_notMem (heq ▸ ha)
    set l' := { l.spliceMarked (c.addrs.getLast hne) (c.addrs.head hne) x with
      size := wadd l.size 1 } with hl'
    have hs : Spliced l l' l.fresh (c.addrs.getLast hne) (c.addrs.head hne) x true
        (fun a b => if a = c.addrs.getLast hne then false else b) :=
      spliceMarked_spliced (hnew _ (List.getLast_mem hne)) (hnew _ (List.head_mem hne)) rfl rfl
    refine ⟨l', hrun, ?_⟩
    have haddrs : (c.pushBack l.fresh x).addrs = c.addrs ++ [l.fresh] := by
      simp [Contents.pushBack, Contents.addrs]
    have hmem : ∀ a, a ∈ c.addrs ++ [l.fresh] ↔ a = l.fresh ∨ a ∈ c.addrs := by
      intro a
      rw [List.mem_append, List.mem_singleton, or_comm]
    constructor
    case first =>
      rw [haddrs, List.head?_append_of_ne_nil _ hne, ← h.first]
      rfl
    case size =>
      rw [Contents.pushBack, List.length_append]
      exact size_step h hfit
    case ring =>
      rw [haddrs, Ring.rotate]
      exact h.splice_ring hne hs
    case nodup =>
      rw [haddrs]
      exact List.nodup_append_comm.mp (List.nodup_cons.mpr ⟨h.fresh_notMem, h.nodup⟩)
    case old =>
      rw [haddrs]
      exact fun a ha => h.splice_old hs ((hmem a).mp ha)
    case live =>
      rw [haddrs]
      exact fun a k hk => (hmem a).mpr (h.splice_live hs hk)
    case link =>
      rw [haddrs, List.getLast?_concat]
      intro a y hy
      rcases List.mem_append.mp hy with hy | hy
      · obtain ⟨k, hk, hdata, hlast⟩ := h.link a y hy
        have ha := hnew a (List.mem_map_of_mem hy)
        refine ⟨_, hs.old a k ha.symm hk, hdata, ?_⟩
        by_cases hend : a = c.addrs.getLast hne
        · simp [hend, hnew _ (List.getLast_mem hne)]
        · have hkl : k.last ≠ true := fun hk' => hend (Option.some.inj
            ((hlast.mp hk').2.symm.trans (List.getLast?_eq_some_getLast hne)))
          simp [hend, hkl, ha]
      · obtain ⟨rfl, rfl⟩ := Prod.mk.inj (List.mem_singleton.mp hy)
        exact ⟨_, hs.new, rfl, by simp [Contents.pushBack]⟩

/-! ## Removal -/

theorem Contents.remove_addrs (c : Contents α) (i : ℕ) :
    (c.remove i).addrs = c.addrs.filter (· ≠ i) := by
  simp only [Contents.remove, Contents.addrs, List.filter_map]
  rfl

theorem Contents.mem_remove {a : ℕ} : a ∈ (c.remove i).addrs ↔ a ∈ c.addrs ∧ a ≠ i := by
  rw [Contents.remove_addrs, List.mem_filter, decide_eq_true_iff]

/-- A link of the list and what is around it. -/
theorem Contents.split (c : Contents α) (hi : i ∈ c.addrs) (hnd : c.addrs.Nodup) :
    ∃ us vs, c.addrs = us ++ i :: vs ∧ i ∉ us ∧ i ∉ vs ∧ (c.remove i).addrs = us ++ vs := by
  obtain ⟨us, vs, hsplit⟩ := List.append_of_mem hi
  rw [hsplit] at hnd
  obtain ⟨_, hvs, hdisj⟩ := List.nodup_append.mp hnd
  have hius : i ∉ us := fun h => hdisj i h i List.mem_cons_self rfl
  have hivs := (List.nodup_cons.mp hvs).1
  refine ⟨us, vs, hsplit, hius, hivs, ?_⟩
  have hkeep : ∀ ws : List ℕ, i ∉ ws → ws.filter (· ≠ i) = ws := fun ws hws =>
    List.filter_eq_self.mpr fun a ha => decide_eq_true (ne_of_mem_of_not_mem ha hws)
  rw [Contents.remove_addrs, hsplit, List.filter_append, hkeep us hius,
    List.filter_cons_of_neg (by simp), hkeep vs hivs]

/-- The links after one between `p` and `n` has been taken out. -/
structure Unlinked (l l' : LinkedList α) (i p n : ℕ) : Prop where
  gone : l'.links i = none
  old : ∀ a k, a ≠ i → l.links a = some k → l'.links a = some ⟨
    if a = n then some p else k.prev, if a = p then some n else k.next, k.data, k.last⟩
  dead : ∀ a, l.links a = none → l'.links a = none
  fresh : l'.fresh = l.fresh

/-- The edits of `remove`. -/
def unlink (l : LinkedList α) (i p n : ℕ) : LinkedList α :=
  let l' := (l.modify p fun k => { k with next := some n }).modify n fun k =>
    { k with prev := some p }
  { l' with links := update l'.links i none }

theorem unlink_unlinked {p n : ℕ} (hlinks : l'.links = (l.unlink i p n).links)
    (hfresh : l'.fresh = l.fresh) : Unlinked l l' i p n where
  gone := by simp [hlinks, unlink]
  old a k ha hk := by
    by_cases hap : a = p <;> by_cases han : a = n <;>
      simp_all [unlink, modify, update_apply]
  dead a hk := by
    by_cases hai : a = i <;> by_cases hap : a = p <;> by_cases han : a = n <;>
      simp_all [unlink, modify, update_apply]
  fresh := hfresh

/-- The mark after a removal: it is gone if it was on the removed link. -/
theorem Contents.remove_mark {us vs : List ℕ} (hsplit : c.addrs = us ++ i :: vs)
    (hvs : i ∉ vs) (haddrs : (c.remove i).addrs = us ++ vs) {a : ℕ} (ha : a ≠ i) :
    ((c.remove i).marked = true ∧ (c.remove i).addrs.getLast? = some a) ↔
      (c.marked = true ∧ c.addrs.getLast? = some a) := by
  have hmark : (c.remove i).marked = true ↔
      c.marked = true ∧ c.addrs.getLast? ≠ some i := by
    simp [Contents.remove]
  rw [hmark, haddrs, hsplit]
  by_cases hnil : vs = []
  case pos =>
    subst hnil
    have hlast : (us ++ [i]).getLast? = some i := List.getLast?_concat ..
    constructor
    · exact fun hand => absurd hlast hand.1.2
    · exact fun hand => absurd (Option.some.inj (hlast.symm.trans hand.2)) ha.symm
  case neg =>
    have hlast : (us ++ i :: vs).getLast? = some (vs.getLast hnil) := by
      rw [List.getLast?_append_of_ne_nil _ (by simp), List.getLast?_cons,
        List.getLast?_eq_some_getLast hnil]
      rfl
    have hlast' : (us ++ vs).getLast? = some (vs.getLast hnil) := by
      rw [List.getLast?_append_of_ne_nil _ hnil, List.getLast?_eq_some_getLast hnil]
    have hnot : vs.getLast hnil ≠ i := fun heq => hvs (heq ▸ List.getLast_mem hnil)
    rw [hlast, hlast']
    simp [hnot]

/-- `remove` up to its two ways. -/
theorem removeLink_eq {k : Link α} {f n : ℕ} (hf : l.first = some f) (hsize : l.size = n + 1)
    (hk : l.links i = some k) :
    l.removeLink i = (do
      let l ←
        if n = 0 then pure { l with first := none }
        else do
          let l ← l.setNext k.prev k.next
          let l ← l.setPrev k.next k.prev
          pure (if i = f then { l with first := k.next } else l)
      return { l with size := n, links := update l.links i none }) := by
  simp only [LinkedList.removeLink, hsize, hf, if_neg (Nat.succ_ne_zero n)]
  rw [deref_some hk, ok_bind]
  rfl

section

variable (h : Represents l c)

include h

/-- The only link is taken out. -/
theorem Represents.remove_single (hone : c.addrs = [i]) :
    Represents { l with first := none, size := 0, links := update l.links i none }
      (c.remove i) := by
  have haddrs : (c.remove i).addrs = [] := by
    rw [Contents.remove_addrs, hone, List.filter_cons_of_neg (by simp), List.filter_nil]
  constructor
  case first => rw [haddrs]; rfl
  case size => exact (List.length_map ..).symm.trans (congrArg List.length haddrs) |>.symm
  case ring => rw [haddrs]; exact Cycle.Chain.nil _
  case nodup => rw [haddrs]; exact List.nodup_nil
  case old => rw [haddrs]; exact fun a ha => absurd ha List.not_mem_nil
  case live =>
    intro a k hk
    by_cases ha : a = i
    · subst ha
      simp at hk
    · change update l.links i none a = some k at hk
      rw [update_of_ne ha] at hk
      exact Contents.mem_remove.mpr ⟨h.live a k hk, ha⟩
  case link =>
    intro a x hx
    have ha : a ∈ (c.remove i).addrs := List.mem_map_of_mem hx
    rw [haddrs] at ha
    exact absurd ha List.not_mem_nil

/-- A link is taken out between two others, or one other that is on both sides of it. -/
theorem Represents.remove_between {us vs : List ℕ} (hsplit : c.addrs = us ++ i :: vs) (hvs : i ∉ vs)
    (haddrs : (c.remove i).addrs = us ++ vs) (hne : vs ++ us ≠ [])
    (hu : Unlinked l l' i ((vs ++ us).getLast hne) ((vs ++ us).head hne))
    (hfirst : l'.first = (us ++ vs).head?) (hsize : l'.size = us.length + vs.length) :
    Represents l' (c.remove i) := by
  -- seen from `i` on, the ring is `i :: vs ++ us`
  have hring : Ring l.nextOf l.prevOf (i :: (vs ++ us) : List ℕ) := by
    have := h.ring
    rw [hsplit, Ring.rotate] at this
    exact this
  have hnd : (i :: (vs ++ us)).Nodup := by
    have := h.nodup
    rw [hsplit] at this
    exact List.nodup_append_comm.mp this
  have hold : ∀ a ∈ vs ++ us,
      l'.nextOf a = (if a = (vs ++ us).getLast hne then some ((vs ++ us).head hne)
        else l.nextOf a) ∧
      l'.prevOf a = (if a = (vs ++ us).head hne then some ((vs ++ us).getLast hne)
        else l.prevOf a) := by
    intro a ha
    have hin : a ∈ us ++ vs := List.mem_append.mpr (List.mem_append.mp ha).symm
    obtain ⟨hmem, hai⟩ := Contents.mem_remove.mp (haddrs ▸ hin)
    obtain ⟨k, hk, hnext, hprev, _⟩ := h.link_of_mem hmem
    rw [← hnext, ← hprev, nextOf, prevOf, hu.old a k hai hk]
    exact ⟨rfl, rfl⟩
  constructor
  case first => rw [haddrs, hfirst]
  case size =>
    rw [hsize, ← List.length_append, ← haddrs]
    exact List.length_map ..
  case ring =>
    rw [haddrs, Ring.rotate]
    refine Ring.remove_head hne hring hnd ?_ ?_ ?_ ?_
    · rw [(hold _ (List.getLast_mem hne)).1, if_pos rfl]
    · rw [(hold _ (List.head_mem hne)).2, if_pos rfl]
    · exact fun a ha hane => by rw [(hold a ha).1, if_neg hane]
    · exact fun a ha hane => by rw [(hold a ha).2, if_neg hane]
  case nodup =>
    rw [haddrs]
    exact List.nodup_append_comm.mp (List.nodup_cons.mp hnd).2
  case old =>
    intro a ha
    rw [hu.fresh]
    exact h.old a (Contents.mem_remove.mp ha).1
  case live =>
    intro a k hk
    have ha : a ≠ i := by
      rintro rfl
      rw [hu.gone] at hk
      cases hk
    cases hlive : l.links a with
    | none =>
      rw [hu.dead a hlive] at hk
      cases hk
    | some k' => exact Contents.mem_remove.mpr ⟨h.live a k' hlive, ha⟩
  case link =>
    intro a x hx
    have hai := (Contents.mem_remove.mp (List.mem_map_of_mem hx)).2
    obtain ⟨k, hk, hdata, hlast⟩ := h.link a x (List.mem_filter.mp hx).1
    refine ⟨_, hu.old a k hai hk, hdata, ?_⟩
    rw [Contents.remove_mark hsplit hvs haddrs hai]
    exact hlast

/-- `remove` of a link in the list. -/
theorem Represents.removeLink (hi : i ∈ c.addrs) :
    ∃ l', l.removeLink i = .ok l' ∧ Represents l' (c.remove i) := by
  obtain ⟨us, vs, hsplit, hus, hvs, haddrs⟩ := c.split hi h.nodup
  obtain ⟨k, hk, hnext, hprev, _⟩ := h.link_of_mem hi
  have hsize : l.size = us.length + vs.length + 1 := by
    have hmap : c.addrs.length = c.elems.length := List.length_map ..
    rw [h.size, ← hmap, hsplit, List.length_append, List.length_cons, Nat.add_assoc]
  obtain ⟨f, hf⟩ : ∃ f, l.first = some f := by
    rw [h.first, hsplit]
    cases us <;> exact ⟨_, rfl⟩
  have hstart := removeLink_eq hf hsize hk
  by_cases hsingle : us.length + vs.length = 0
  case pos =>
    obtain rfl : us = [] := List.length_eq_zero_iff.mp (by omega)
    obtain rfl : vs = [] := List.length_eq_zero_iff.mp (by omega)
    exact ⟨_, by rw [hstart, if_pos hsingle]; rfl, h.remove_single hsplit⟩
  case neg =>
    have hne : vs ++ us ≠ [] := by
      intro hnil
      have := congrArg List.length hnil
      rw [List.length_append, List.length_nil] at this
      omega
    have hring := h.ring
    rw [hsplit, Ring.rotate] at hring
    obtain ⟨hn, hp⟩ := Ring.head_eq hne hring
    refine ⟨{ l.unlink i ((vs ++ us).getLast hne) ((vs ++ us).head hne) with
      first := if i = f then some ((vs ++ us).head hne) else some f,
      size := us.length + vs.length }, ?_, ?_⟩
    · rw [hstart, if_neg hsingle, hnext, hprev, hn, hp]
      simp only [setNext, setPrev, ok_bind]
      split <;> simp_all [unlink, modify] <;> rfl
    · refine h.remove_between hsplit hvs haddrs hne (unlink_unlinked rfl rfl) ?_ rfl
      have hhead := h.first
      rw [hf, hsplit] at hhead
      cases us with
      | nil =>
        obtain rfl := Option.some.inj hhead
        show (if f = f then _ else some f) = _
        simp [List.head?_eq_some_head (by simpa using hne : vs ≠ [])]
      | cons u us =>
        obtain rfl := Option.some.inj hhead
        have hif : i ≠ f := fun heq => hus (heq ▸ List.mem_cons_self)
        show (if i = f then _ else some f) = _
        rw [if_neg hif]
        rfl

/-! ## Walking -/

/-- A link, seen from its place in the list. -/
theorem Represents.link_at {us vs : List (ℕ × α)} {a : ℕ} (hsplit : c.elems = us ++ (a, x) :: vs) :
    ∃ k, l.links a = some k ∧ k.data = x ∧ (vs ≠ [] → k.next = (vs.map Prod.fst).head?) ∧
      (k.last = true ↔ c.marked = true ∧ vs = []) := by
  have haddrs : c.addrs = us.map Prod.fst ++ a :: vs.map Prod.fst := by
    simp [Contents.addrs, hsplit]
  obtain ⟨k, hk, hdata, hlast⟩ := h.link a x (by simp [hsplit])
  refine ⟨k, hk, hdata, fun hne => ?_, ?_⟩
  · obtain ⟨⟨b, y⟩, ws, rfl⟩ := List.exists_cons_of_ne_nil hne
    have hring := h.ring
    rw [haddrs] at hring
    have hnext := (Ring.next_eq hring).1
    rw [nextOf, hk] at hnext
    exact hnext
  · rw [hlast]
    refine and_congr_right fun _ => ?_
    rw [haddrs, List.getLast?_append_of_ne_nil _ (by simp)]
    cases vs with
    | nil => simp
    | cons v vs =>
      have hnd := h.nodup
      rw [haddrs] at hnd
      have ha := (List.nodup_cons.mp (List.nodup_append.mp hnd).2.1).1
      simp only [reduceCtorEq, iff_false]
      intro heq
      exact ha (Option.some.inj heq ▸ List.getLast_mem _)

theorem Represents.walk_from {us vs : List (ℕ × α)} {n : ℕ}
    (hsplit : c.elems = us ++ vs) (hn : n < vs.length) :
    l.walk n (vs.map Prod.fst).head? = .ok (vs.map Prod.fst)[n]? := by
  induction n generalizing us vs with
  | zero =>
    obtain ⟨⟨a, x⟩, vs, rfl⟩ := List.exists_cons_of_length_pos hn
    rfl
  | succ n ih =>
    obtain ⟨⟨a, x⟩, vs, rfl⟩ := List.exists_cons_of_length_pos (Nat.zero_lt_of_lt hn)
    rw [List.length_cons] at hn
    have hne : vs ≠ [] := by
      rintro rfl
      exact Nat.not_lt_zero n (Nat.lt_of_succ_lt_succ hn)
    obtain ⟨k, hk, _, hnext, _⟩ := h.link_at hsplit
    simp only [List.map_cons, List.head?_cons, walk, deref_some hk, ok_bind, hnext hne,
      List.getElem?_cons_succ]
    exact @ih (us ++ [(a, x)]) vs (by simp [hsplit]) (by omega)

/-- `remove(idx)` finds the link of the element. -/
theorem Represents.removeAt {idx : ℕ} (hidx : idx < l.size) :
    ∃ i, c.addrs[idx]? = some i ∧ l.removeAt idx = l.removeLink i := by
  have hlen : idx < c.elems.length := h.size ▸ hidx
  have hlt : idx < c.addrs.length := by rwa [Contents.addrs, List.length_map]
  have hwalk := @Represents.walk_from _ _ _ h [] c.elems idx rfl hlen
  have hget : c.addrs[idx]? = some c.addrs[idx] := List.getElem?_eq_getElem hlt
  refine ⟨_, hget, ?_⟩
  rw [LinkedList.removeAt, if_neg (by omega), h.first]
  change (l.walk idx (c.elems.map Prod.fst).head? >>= _) = _
  rw [hwalk, ok_bind]
  rw [← Contents.addrs, hget]

theorem Represents.iterate_from (hmarked : c.marked = true)
    {us vs : List (ℕ × α)} {fuel : ℕ} (hsplit : c.elems = us ++ vs)
    (hfuel : vs.length ≤ fuel) :
    l.iterateFrom fuel (vs.map Prod.fst).head? = .ok (vs.map Prod.snd) := by
  induction fuel generalizing us vs with
  | zero =>
    obtain rfl := List.length_eq_zero_iff.mp (Nat.le_zero.mp hfuel)
    rfl
  | succ fuel ih =>
    cases vs with
    | nil => rfl
    | cons v vs =>
      obtain ⟨a, x⟩ := v
      rw [List.length_cons] at hfuel
      obtain ⟨k, hk, rfl, hnext, hlast⟩ := h.link_at hsplit
      have hrest : (if k.last = true then none else k.next) = (vs.map Prod.fst).head? := by
        by_cases hnil : vs = []
        · subst hnil
          rw [if_pos (hlast.mpr ⟨hmarked, rfl⟩)]
          rfl
        · rw [if_neg fun hk' => hnil (hlast.mp hk').2, hnext hnil]
      have htail := @ih (us ++ [(a, k.data)]) vs (by simp [hsplit]) (by omega)
      simp only [List.map_cons, List.head?_cons, iterateFrom, deref_some hk, ok_bind, hrest, htail]
      rfl

end

end Represents

/-! ## Runs -/

/-- The operations of a list. -/
inductive Op (α : Type) where
  | pushBack (x : α)
  | pushFront (x : α)
  | removeLink (i : ℕ)
  | removeAt (idx : ℕ)
deriving DecidableEq, Repr

/-- One operation; insertions return the new link. -/
def step (l : LinkedList α) : Op α → Except Halt (Option ℕ × LinkedList α)
  | .pushBack x => do
    let (i, l) ← l.pushBack x
    return (some i, l)
  | .pushFront x => do
    let (i, l) ← l.pushFront x
    return (some i, l)
  | .removeLink i => do
    let l ← l.removeLink i
    return (none, l)
  | .removeAt idx => do
    let l ← l.removeAt idx
    return (none, l)

/-- Indices are in range, and there are never `2^64` links at once. -/
def Valid (l : LinkedList α) : Op α → Prop
  | .pushBack _ => l.size + 1 < 2 ^ 64
  | .pushFront _ => l.size + 1 < 2 ^ 64
  | .removeLink _ => True
  | .removeAt idx => idx < l.size

instance (l : LinkedList α) (op : Op α) : Decidable (Valid l op) := by
  cases op <;> unfold Valid <;> infer_instance

/-- What an operation does to the contents. -/
def Contents.step (c : Contents α) : Op α × Option ℕ → Contents α
  | (.pushBack x, some i) => c.pushBack i x
  | (.pushFront x, some i) => c.pushFront i x
  | (.removeLink i, _) => c.remove i
  | (.removeAt idx, _) => (c.addrs[idx]?).elim c c.remove
  | (_, none) => c

/-- The contents after a history. -/
def contents (h : List (Op α × Option ℕ)) : Contents α := h.foldl Contents.step .nil

theorem contents_snoc (h : List (Op α × Option ℕ)) (x : Op α × Option ℕ) :
    contents (h ++ [x]) = (contents h).step x := by
  rw [contents, List.foldl_append]
  rfl

section Runs

variable {l l' : LinkedList α} {c : Contents α}

/-- `push_back` succeeds on lists with their mark only. -/
theorem Represents.kept_of_pushBack (h : Represents l c) {x : α} {r : ℕ × LinkedList α}
    (hr : l.pushBack x = .ok r) : c.Kept := by
  by_contra hlost
  obtain ⟨hempty, hmarked⟩ := not_or.mp hlost
  obtain ⟨_, _, _, _, _, hrun⟩ := h.pushBack_eq hempty x
  rw [if_neg hmarked, hr] at hrun
  cases hrun

theorem Represents.mem_of_removeLink (h : Represents l c) {i : ℕ}
    (hr : l.removeLink i = .ok l') : i ∈ c.addrs := by
  unfold LinkedList.removeLink at hr
  split at hr
  case isTrue => cases hr
  case isFalse =>
    split at hr
    case h_1 => cases hr
    case h_2 =>
      obtain ⟨k, hk, _⟩ := bind_eq_ok.mp hr
      cases hlive : l.links i with
      | none =>
        rw [deref, hlive] at hk
        cases hk
      | some k' => exact h.live i k' hlive

/-- Every operation acts on the contents. -/
theorem Represents.step (h : Represents l c) {op : Op α} {r : Option ℕ} (hv : Valid l op)
    (hstep : l.step op = .ok (r, l')) : Represents l' (c.step (op, r)) := by
  cases op with
  | pushBack x =>
    obtain ⟨⟨i, l₁⟩, hr, hret⟩ := bind_eq_ok.mp hstep
    cases hret
    obtain ⟨l₂, hr', hrep⟩ := h.pushBack hv (h.kept_of_pushBack hr) x
    rw [hr] at hr'
    cases hr'
    exact hrep
  | pushFront x =>
    obtain ⟨⟨i, l₁⟩, hr, hret⟩ := bind_eq_ok.mp hstep
    cases hret
    obtain ⟨l₂, hr', hrep⟩ := h.pushFront hv x
    rw [hr] at hr'
    cases hr'
    exact hrep
  | removeLink i =>
    obtain ⟨l₁, hr, hret⟩ := bind_eq_ok.mp hstep
    cases hret
    obtain ⟨l₂, hr', hrep⟩ := h.removeLink (h.mem_of_removeLink hr)
    rw [hr] at hr'
    cases hr'
    exact hrep
  | removeAt idx =>
    obtain ⟨l₁, hr, hret⟩ := bind_eq_ok.mp hstep
    cases hret
    obtain ⟨i, hi, heq⟩ := h.removeAt hv
    obtain ⟨l₂, hr', hrep⟩ := h.removeLink (List.mem_of_getElem? hi)
    rw [heq, hr'] at hr
    cases hr
    show Represents _ ((c.addrs[idx]?).elim c c.remove)
    rw [hi]
    exact hrep

theorem runs_represents {h : List (Op α × Option ℕ)} (hrun : Runs step Valid empty h l) :
    Represents l (contents h) := by
  refine hrun.invariant (P := fun h l => Represents l (contents h)) empty_represents ?_
  intro h l op r l' hrep hv hstep
  rw [contents_snoc]
  exact hrep.step hv hstep

end Runs

/-- The list has its end marker, and what relies on it works: the marked link is the
one before the first and no other, `push_back` passes its assertion, and iterating
yields the elements in order and ends. -/
structure EndMarker (l : LinkedList α) (xs : List (ℕ × α)) : Prop where
  marked : xs ≠ [] → ∃ f kf e, l.first = some f ∧ l.links f = some kf ∧ kf.prev = some e ∧
    e ∈ xs.map Prod.fst ∧
    ∀ a ∈ xs.map Prod.fst, ∃ k, l.links a = some k ∧ (k.last = true ↔ a = e)
  pushes : ∀ x, ∃ r, l.pushBack x = .ok r
  iterates : ∀ fuel, xs.length ≤ fuel → l.iterate fuel = .ok (xs.map Prod.snd)

/-- **End marker.** After any run, the list has its end marker if and only if the flag
is there: since the list was last empty, no removal has taken the last link of
several. -/
theorem end_marker_iff {h : List (Op α × Option ℕ)} {l : LinkedList α}
    (hrun : Runs step Valid empty h l) :
    EndMarker l (contents h).elems ↔ (contents h).Kept := by
  have hrep := runs_represents hrun
  constructor
  · intro hend
    by_cases hempty : (contents h).elems = []
    · exact Or.inl hempty
    · obtain ⟨f, kf, e, _, _, _, he, hall⟩ := hend.marked hempty
      obtain ⟨k, hk, hlast⟩ := hall e he
      obtain ⟨k', hk', _, _, hlast'⟩ := hrep.link_of_mem he
      rw [hk] at hk'
      obtain rfl := Option.some.inj hk'
      exact Or.inr (hlast'.mp (hlast.mpr rfl)).1
  · intro hkept
    constructor
    case marked =>
      intro hempty
      have hne := addrs_ne_nil hempty
      obtain ⟨kf, ke, hfirst, hkf, hprev, _, _⟩ := hrep.enter hne
      refine ⟨_, kf, _, hfirst, hkf, hprev, List.getLast_mem hne, fun a ha => ?_⟩
      obtain ⟨k, hk, _, _, hlast⟩ := hrep.link_of_mem ha
      refine ⟨k, hk, hlast.trans ?_⟩
      rw [List.getLast?_eq_some_getLast hne, Option.some.injEq,
        and_iff_right (hkept.resolve_left hempty), eq_comm]
    case pushes =>
      intro x
      by_cases hempty : (contents h).elems = []
      · exact ⟨_, by rw [LinkedList.pushBack, hrep.first_none hempty]⟩
      · obtain ⟨_, _, _, _, _, hpush⟩ := hrep.pushBack_eq hempty x
        exact ⟨_, by rw [hpush, if_pos (hkept.resolve_left hempty)]⟩
    case iterates =>
      intro fuel hfuel
      rw [iterate, hrep.first]
      rcases hkept with hempty | hmarked
      · rw [Contents.addrs, hempty]
        cases fuel <;> rfl
      · exact @Represents.iterate_from _ _ _ hrep hmarked [] _ fuel rfl hfuel

/-- The first two of three elements are removed. -/
theorem end_marker_iff_front :
    ∃ h l, Runs step Valid (empty : LinkedList ℕ) h l ∧ EndMarker l [(2, 30)] := by
  have hreplay : (replay step Valid [] (empty : LinkedList ℕ)
      [.pushBack 20, .pushFront 10, .pushBack 30, .removeLink 0, .removeAt 0]).map
        (fun r => (contents r.1)) = some ⟨[(2, 30)], true⟩ := by
    decide
  obtain ⟨⟨h, l⟩, hr, hc⟩ := Option.map_eq_some_iff.mp hreplay
  have hrun := (Runs.nil empty).replay hr
  have hend := (end_marker_iff hrun).mpr (Or.inr (congrArg Contents.marked hc))
  rw [show (contents h).elems = [(2, 30)] from congrArg Contents.elems hc] at hend
  exact ⟨h, l, hrun, hend⟩

/-- After the last of two elements has been removed, no link is marked: `push_back`
fails and iterating does not end. -/
theorem end_marker_lost :
    ∃ h l, Runs step Valid (empty : LinkedList ℕ) h l ∧ (contents h).elems = [(0, 10)] ∧
      l.links 0 = some ⟨some 0, some 0, 10, false⟩ ∧
      l.pushBack 30 = .error (.assertion "first->prev->last") ∧
      ∀ fuel, l.iterate fuel = .error .endless := by
  have hreplay : (replay step Valid [] (empty : LinkedList ℕ)
      [.pushBack 10, .pushBack 20, .removeAt 1]).map
        (fun r => (contents r.1, r.2.first, r.2.links 0)) =
      some (⟨[(0, 10)], false⟩, some 0, some ⟨some 0, some 0, 10, false⟩) := by
    decide
  obtain ⟨⟨h, l⟩, hr, heq⟩ := Option.map_eq_some_iff.mp hreplay
  obtain ⟨hc, heq⟩ := Prod.mk.inj heq
  obtain ⟨hfirst, hlink⟩ := Prod.mk.inj heq
  have hrun := (Runs.nil empty).replay hr
  refine ⟨h, l, hrun, congrArg Contents.elems hc, hlink, ?_, ?_⟩
  · have hne : (contents h).elems ≠ [] := by
      rw [show contents h = _ from hc]
      simp
    obtain ⟨_, _, _, _, _, hpush⟩ := (runs_represents hrun).pushBack_eq hne 30
    rw [hpush, show (contents h).marked = false from congrArg Contents.marked hc]
    rfl
  · intro fuel
    rw [iterate, show l.first = some 0 from hfirst]
    induction fuel with
    | zero => rfl
    | succ fuel ih =>
      rw [iterateFrom, deref_some hlink, ok_bind]
      change (l.iterateFrom fuel (some 0) >>= _) = _
      rw [ih]
      rfl

end NeptunOS.LinkedList
