import NeptunOS.Fs.FatRobust
import NeptunOS.Lib.Blocks

/-!
# Reading files from a FAT32 volume

`chainread` skips whole clusters of a chain and reads on from there, cluster by cluster. Where a
cluster begins is computed twice in the driver: `clusteroff` multiplies with the size of a cluster,
`diskoffset` with 512.

- `Linked.chainread_eq`: what is read of a chain, whatever `diskoffset` returns.
- `chainread_iff`: the volumes and chains where that is the file.
- `fat32Read_iff`: `fat32_read` goes on to the end of the chain, not to the end of the file.
-/

namespace NeptunOS.Fat

open Function Fs Stepwise Blocks

/-! ## Following a chain -/

section Follow

variable {d : Disk} {h : Handle} {bpc c fuel q o bytes offset : ℕ} {cs : List ℕ}

/-- `msd_read(.., diskoffset(f, cluster) + clusteroff, readlen, buf)`. -/
def pieceRead (d : Disk) (h : Handle) (c o n : ℕ) : List UInt8 :=
  (List.range n).map (d.read (wadd (wadd h.dataoffset ((c - 2) * 512 % 2 ^ 32)) o) n)

theorem readCluster_eq (hc : 2 ≤ c) (o n : ℕ) :
    readCluster d h true c o n = .ok (pieceRead d h c o n) := by
  rw [readCluster, if_pos rfl, diskoffset, if_neg (Nat.not_lt.mpr hc)]
  rfl

theorem length_pieceRead (c o n : ℕ) : (pieceRead d h c o n).length = n := by
  rw [pieceRead, List.length_map, List.length_range]

/-- Skipping inside a chain leads to the cluster with that number. -/
theorem Linked.skip (hlinked : Linked h c cs) (hlt : ∀ x ∈ cs, x < 0x0ffffff8)
    (hq : q < cs.length) : ∃ c', skipLoop h q c = .ok c' ∧ Linked h c' (cs.drop q) := by
  induction q generalizing c cs with
  | zero => exact ⟨c, rfl, hlinked⟩
  | succ q ih =>
    cases hlinked with
    | last hin hend => exact absurd hq (Nat.not_lt_of_ge (Nat.le_add_left 1 q))
    | cons hin hmore htail =>
      obtain ⟨hc, hcs⟩ := List.forall_mem_cons.mp hlt
      obtain ⟨c', hskip, hdrop⟩ := ih htail hcs (Nat.lt_of_succ_lt_succ hq)
      refine ⟨c', ?_, hdrop⟩
      simp only [skipLoop, fatent_eq hin, ok_bind, if_neg (Nat.not_le.mpr hc), hskip]

/-- The last cluster can be skipped as well. -/
theorem Linked.skip_all (hlinked : Linked h c cs) (hlt : ∀ x ∈ cs, x < 0x0ffffff8) :
    ∃ c', skipLoop h cs.length c = .ok c' := by
  induction hlinked with
  | @last c hin hend =>
    have hc := List.forall_mem_singleton.mp hlt
    refine ⟨fatNext h c, ?_⟩
    simp only [List.length_singleton, skipLoop, fatent_eq hin, ok_bind, if_neg (Nat.not_le.mpr hc)]
  | @cons c cs hin hmore htail ih =>
    obtain ⟨hc, hcs⟩ := List.forall_mem_cons.mp hlt
    obtain ⟨c', hskip⟩ := ih hcs
    refine ⟨c', ?_⟩
    simp only [List.length_cons, skipLoop, fatent_eq hin, ok_bind, if_neg (Nat.not_le.mpr hc),
      hskip]

theorem chainLoop_none (hfuel : fuel ≠ 0) : chainLoop d h bpc true fuel c o 0 = .ok ([], 0) := by
  obtain ⟨f, rfl⟩ := Nat.exists_eq_succ_of_ne_zero hfuel
  rw [chainLoop, if_pos rfl]

/-- A loop that returns has read the entry of its cluster, and gone on with the next one. -/
theorem chainLoop_ok {r : List UInt8 × ℕ} (hc : 2 ≤ c) (hbytes : bytes ≠ 0)
    (hrun : chainLoop d h bpc true fuel c o bytes = .ok r) :
    4 * c + 4 ≤ h.fatsize ∧ (fatNext h c < 0x0ffffff8 → ∃ f r',
      chainLoop d h bpc true f (fatNext h c) 0 (bytes - min bytes (bpc - o)) = .ok r') := by
  cases fuel with
  | zero => cases hrun
  | succ f =>
    rcases fatent_cases h c with ⟨hin, hnext⟩ | ⟨-, msg, hmsg⟩
    · refine ⟨hin, fun hmore => ?_⟩
      rw [chainLoop_next (readCluster_eq hc _ _) hnext hmore hbytes] at hrun
      obtain ⟨r', hrest, -⟩ := bind_eq_ok.mp hrun
      exact ⟨f, r', hrest⟩
    · rw [chainLoop, if_neg hbytes] at hrun
      simp only [readCluster_eq hc, hmsg, ok_bind] at hrun
      cases hrun

/-- The loop reads the range cluster by cluster, up to the end of the chain. -/
theorem Linked.chainLoop_eq (hlinked : Linked h c cs) (hcs : ∀ x ∈ cs, 2 ≤ x) (ho : o < bpc)
    (hfuel : cs.length ≤ fuel) :
    chainLoop d h bpc true fuel c o bytes =
      .ok (spans bpc (pieceRead d h) cs o bytes, min bytes (cs.length * bpc - o)) := by
  induction hlinked generalizing fuel o bytes with
  | @last c hin hend =>
    obtain ⟨f, rfl⟩ := Nat.exists_eq_succ_of_ne_zero (Nat.ne_zero_of_lt hfuel)
    have hc := List.forall_mem_singleton.mp hcs
    by_cases hbytes : bytes = 0
    · rw [hbytes, spans_zero (fun _ _ _ => rfl), Nat.zero_min, chainLoop_none (Nat.succ_ne_zero f)]
    · rw [chainLoop_end (readCluster_eq hc _ _) (fatent_eq hin) hend hbytes, spans, spans,
        List.append_nil, List.length_singleton, Nat.one_mul]
  | @cons c cs hin hmore htail ih =>
    obtain ⟨f, rfl⟩ := Nat.exists_eq_succ_of_ne_zero (Nat.ne_zero_of_lt hfuel)
    obtain ⟨hc, hcs⟩ := List.forall_mem_cons.mp hcs
    by_cases hbytes : bytes = 0
    · rw [hbytes, spans_zero (fun _ _ _ => rfl), Nat.zero_min, chainLoop_none (Nat.succ_ne_zero f)]
    · rw [chainLoop_next (readCluster_eq hc _ _) (fatent_eq hin) hmore hbytes, if_pos rfl,
        ih hcs (Nat.zero_lt_of_lt ho) (Nat.le_of_succ_le_succ hfuel), ok_bind, spans,
        List.length_cons, ← min_blocks (Nat.le_of_lt ho), Nat.sub_zero]

/-- `chainread` reads the range from the cluster that holds its beginning. -/
theorem Linked.chainread_eq (hlinked : Linked h c cs) (hcs : ∀ x ∈ cs, 2 ≤ x ∧ x < 0x0ffffff7)
    (hbpc : 0 < clusterBytes h.bpb) (hoffset : offset < cs.length * clusterBytes h.bpb)
    (hfuel : cs.length ≤ fuel) :
    chainread d h fuel c offset bytes true =
      .ok (spans (clusterBytes h.bpb) (pieceRead d h) (cs.drop (offset / clusterBytes h.bpb))
        (offset % clusterBytes h.bpb) bytes,
        min bytes (cs.length * clusterBytes h.bpb - offset)) := by
  have hq : offset / clusterBytes h.bpb < cs.length :=
    Nat.div_lt_of_lt_mul (Nat.mul_comm _ _ ▸ hoffset)
  obtain ⟨c', hskip, hdrop⟩ := hlinked.skip (fun x hx => Nat.lt_succ_of_lt (hcs x hx).2) hq
  have hloop := @chainLoop_eq d h (clusterBytes h.bpb) c' fuel (offset % clusterBytes h.bpb) bytes _
    hdrop (fun x hx => (hcs x (List.mem_of_mem_drop hx)).1) (Nat.mod_lt _ hbpc)
    (Nat.le_trans (List.length_drop ▸ Nat.sub_le _ _) hfuel)
  rw [chainread, ← clusterBytes, hskip, ok_bind, if_pos rfl, hloop, remaining_eq]

end Follow

/-! ## The bytes of a file -/

section Bytes

variable {d : Disk} {h : Handle} {c offset fuel : ℕ} {cs : List ℕ}

/-- Reads from the disk return what was asked for. -/
def Disk.Exact (d : Disk) : Prop := ∀ o k, d.behind o k = d.bytes (o + k)

theorem Disk.Exact.read_eq (hexact : d.Exact) (o n k : ℕ) : d.read o n k = d.bytes (o + k) := by
  rw [Disk.read]
  split
  · rfl
  · exact hexact o k

/-- Both computations lead to the cluster, without overflow; `diskoffset(f, cluster) + k` is where
byte `k` of it lies. -/
structure Located (offset : ℕ) (h : Handle) (c : ℕ) : Prop where
  position : ∃ p, diskoffset h c = .ok p ∧
    ∀ k < clusterBytes h.bpb, wadd p k = location offset h.bpb c + k
  clusteroff_eq : ∀ e : Slot, e.cluster = c → clusteroff h e = location offset h.bpb c
  product : (c - 2) * clusterBytes h.bpb < 2 ^ 32

/-- A cluster that `chainread` gets to: the factor 512 does not matter, nothing overflows, and its
entry is in the part of the FAT that was read. -/
structure Reached (offset : ℕ) (h : Handle) (c : ℕ) : Prop where
  place : c = 2 ∨ clusterBytes h.bpb = 512
  product : (c - 2) * clusterBytes h.bpb < 2 ^ 32
  fits : location offset h.bpb c + clusterBytes h.bpb ≤ 2 ^ 64
  entry : 4 * c + 4 ≤ h.bpb.sectorsPerFat * h.bpb.bytesPerSector % 2 ^ 32

theorem modMain_fatsize (hmod : modMain d offset = .ok (some h)) :
    h.fatsize = h.bpb.sectorsPerFat * h.bpb.bytesPerSector % 2 ^ 32 :=
  congrArg Handle.fatsize (modMain_eq_some hmod).2

theorem product_512 (hlow : 512 ≤ clusterBytes h.bpb)
    (hproduct : (c - 2) * clusterBytes h.bpb < 2 ^ 32) : (c - 2) * 512 < 2 ^ 32 :=
  Nat.lt_of_le_of_lt (Nat.mul_le_mul_left _ hlow) hproduct

theorem Reached.located (hmount : Mounted d offset h) (hc : 2 ≤ c) (hreached : Reached offset h c) :
    Located offset h c := by
  have hlow := hmount.cluster
  have hfits := hreached.fits
  refine ⟨⟨_, diskoffset_eq_location hmount.dataoffset hc hreached.place
    (product_512 hlow hreached.product) (by omega), fun k hk => wadd_of_lt (by omega)⟩, ?_,
    hreached.product⟩
  rintro e rfl
  exact clusteroff_eq_location hmount.dataoffset hc hreached.product (by omega)

theorem Located.fits (hlow : 512 ≤ clusterBytes h.bpb) (hlocated : Located offset h c) :
    location offset h.bpb c + clusterBytes h.bpb ≤ 2 ^ 64 := by
  obtain ⟨p, -, hp⟩ := hlocated.position
  have hlast := hp (clusterBytes h.bpb - 1) (by omega)
  have hlt := wadd_lt p (clusterBytes h.bpb - 1)
  omega

theorem Located.dataStart_lt (hlow : 512 ≤ clusterBytes h.bpb) (hlocated : Located offset h c) :
    dataStart offset h.bpb < 2 ^ 64 := by
  have hfits := hlocated.fits hlow
  rw [location] at hfits
  omega

theorem Located.place (hmount : Mounted d offset h) (hc : 2 ≤ c) (hlocated : Located offset h c) :
    c = 2 ∨ clusterBytes h.bpb = 512 := by
  have hlow := hmount.cluster
  have hfits := hlocated.fits hlow
  obtain ⟨p, hp, hpos⟩ := hlocated.position
  have hsmall := product_512 hlow hlocated.product
  have hle : (c - 2) * 512 ≤ (c - 2) * clusterBytes h.bpb := Nat.mul_le_mul_left _ hlow
  rw [diskoffset, if_neg (Nat.not_lt.mpr hc), Nat.mod_eq_of_lt hsmall, hmount.dataoffset] at hp
  have hzero := hpos 0 (by omega)
  rw [← Except.ok.inj hp, wadd_zero (wadd_lt _ _)] at hzero
  rw [location] at hzero hfits
  rw [wadd_of_lt (by omega)] at hzero
  have heq : (c - 2) * 512 = (c - 2) * clusterBytes h.bpb := by omega
  rcases Nat.eq_zero_or_pos (c - 2) with hz | hpos
  · exact .inl (by omega)
  · exact .inr (Nat.eq_of_mul_eq_mul_left hpos heq).symm

/-- The FAT in memory is the one on the disk. -/
theorem fatNext_eq (hexact : d.Exact) (hmount : Mounted d offset h) (c : ℕ) :
    fatNext h c = nextCluster d offset h.bpb c := by
  have hread : ∀ j < 4, h.fat (4 * c + j) = d.bytes (fatStart offset h.bpb + 4 * c + j) := by
    intro j _
    rw [hmount.fat, hexact.read_eq, Nat.add_assoc]
  rw [fatNext, nextCluster, leBytes_congr hread]

theorem Chain.two_le (hchain : Chain d offset h.bpb c cs) : ∀ x ∈ cs, 2 ≤ x := by
  induction hchain with
  | last hc hend => exact List.forall_mem_singleton.mpr hc
  | cons hc hnext htail ih => exact List.forall_mem_cons.mpr ⟨hc, ih⟩

theorem Chain.linked (hexact : d.Exact) (hmount : Mounted d offset h)
    (hchain : Chain d offset h.bpb c cs) (hin : ∀ x ∈ cs, 4 * x + 4 ≤ h.fatsize) :
    Linked h c cs := by
  induction hchain with
  | @last c hc hend =>
    exact .last (hin c List.mem_cons_self) (fatNext_eq hexact hmount c ▸ hend)
  | @cons c cs hc hnext htail ih =>
    obtain ⟨hin, hins⟩ := List.forall_mem_cons.mp hin
    rw [← fatNext_eq hexact hmount c] at hnext ih
    exact .cons hin hnext (ih hins)

/-- A chain that is read to its end has its entries in the FAT. -/
theorem Chain.entries (hexact : d.Exact) (hmount : Mounted d offset h)
    (hchain : Chain d offset h.bpb c cs) {r : List UInt8 × ℕ}
    (hrun : chainLoop d h (clusterBytes h.bpb) true fuel c 0 (cs.length * clusterBytes h.bpb) =
      .ok r) : ∀ x ∈ cs, 4 * x + 4 ≤ h.fatsize := by
  have hlow := hmount.cluster
  induction hchain generalizing fuel r with
  | @last c hc hend =>
    intro x hx
    rw [List.mem_singleton.mp hx]
    rw [List.length_singleton, Nat.one_mul] at hrun
    exact (chainLoop_ok hc (by omega) hrun).1
  | @cons c cs hc hnext htail ih =>
    rw [List.length_cons, Nat.succ_mul] at hrun
    obtain ⟨hin, hrest⟩ := chainLoop_ok hc (by omega) hrun
    rw [fatNext_eq hexact hmount c, Nat.sub_zero, Nat.min_eq_right (Nat.le_add_left _ _),
      Nat.add_sub_cancel] at hrest
    obtain ⟨f, r', hrest⟩ := hrest hnext
    exact List.forall_mem_cons.mpr ⟨hin, ih hrest⟩

/-- A piece of a cluster, where the cluster is found. -/
theorem Located.pieceRead_eq (hexact : d.Exact) (hc : 2 ≤ c) (hlocated : Located offset h c)
    {o n : ℕ} (hon : o + n ≤ clusterBytes h.bpb) :
    pieceRead d h c o n = ((clusterData d offset h.bpb c).drop o).take n := by
  obtain ⟨p, hp, hpos⟩ := hlocated.position
  rw [diskoffset, if_neg (Nat.not_lt.mpr hc)] at hp
  rw [pieceRead, Except.ok.inj hp]
  refine List.ext_getElem ?_ fun k hk hk' => ?_
  · simp only [clusterData, List.length_map, List.length_range, List.length_take, List.length_drop]
    omega
  · rw [List.length_map, List.length_range] at hk
    simp only [clusterData, List.getElem_map, List.getElem_range, List.getElem_take,
      List.getElem_drop, hexact.read_eq, hpos o (by omega), Nat.add_assoc]

/-- Along clusters that are found, `chainread` reads the range. -/
theorem Linked.chainread_located (hexact : d.Exact) (hlinked : Linked h c cs)
    (hcs : ∀ x ∈ cs, 2 ≤ x ∧ x < 0x0ffffff7) (hbpc : 0 < clusterBytes h.bpb)
    (hlocated : ∀ x ∈ cs, Located offset h x) {off bytes : ℕ}
    (hoff : off < cs.length * clusterBytes h.bpb) (hfuel : cs.length ≤ fuel) :
    chainread d h fuel c off bytes true =
      .ok (((cs.flatMap (clusterData d offset h.bpb)).drop off).take bytes,
        min bytes (cs.length * clusterBytes h.bpb - off)) := by
  have hlen : ∀ x ∈ cs, (clusterData d offset h.bpb x).length = clusterBytes h.bpb := by
    intro x _
    rw [clusterData, List.length_map, List.length_range]
  have hspans := @spans_eq _ _ _ (pieceRead d h) (clusterData d offset h.bpb)
    (cs.drop (off / clusterBytes h.bpb)) (off % clusterBytes h.bpb) bytes
    (fun x hx => hlen x (List.mem_of_mem_drop hx))
    (fun x hx o n hon => (hlocated x (List.mem_of_mem_drop hx)).pieceRead_eq hexact
      (hcs x (List.mem_of_mem_drop hx)).1 hon)
    (Nat.le_of_lt (Nat.mod_lt _ hbpc))
  rw [hlinked.chainread_eq hcs hbpc hoff hfuel, hspans, ← drop_blocks hlen, Nat.div_add_mod']

/-- With a disk that returns what it is asked for, `chainread` reads every range of a chain from
the places that the geometry of the volume gives, exactly when the clusters are `Reached`. -/
theorem chainread_iff (hmod : modMain d offset = .ok (some h)) (hexact : d.Exact)
    (hchain : Chain d offset h.bpb c cs) (hlt : ∀ x ∈ cs, x < 0x0ffffff7) :
    ((∀ x ∈ cs, Located offset h x) ∧
      ∀ off < cs.length * clusterBytes h.bpb, ∀ bytes fuel, cs.length ≤ fuel →
        chainread d h fuel c off bytes true =
          .ok (((cs.flatMap (clusterData d offset h.bpb)).drop off).take bytes,
            min bytes (cs.length * clusterBytes h.bpb - off))) ↔
      ∀ x ∈ cs, Reached offset h x := by
  obtain ⟨hlow, -⟩ := (modMain_eq_some hmod).1.clusterBytes_bounds
  have hpos : 0 < clusterBytes h.bpb := Nat.lt_of_lt_of_le (by decide) hlow
  have hsize := modMain_fatsize hmod
  have htwo := hchain.two_le
  obtain ⟨rest, hhead⟩ := hchain.head
  have hc : c ∈ cs := hhead ▸ List.mem_cons_self
  constructor
  · rintro ⟨hlocated, hread⟩
    have hmount := modMain_mounted hmod ((hlocated c hc).dataStart_lt hlow)
    -- a read of the whole chain looks at every entry
    have hall := hread 0 (Nat.mul_pos (List.length_pos_of_mem hc) hpos)
      (cs.length * clusterBytes h.bpb) cs.length (Nat.le_refl _)
    rw [chainread, Nat.zero_div, Nat.zero_mod, skipLoop, ok_bind, if_pos rfl] at hall
    have hentries := hchain.entries hexact hmount hall
    intro x hx
    exact ⟨(hlocated x hx).place hmount (htwo x hx), (hlocated x hx).product,
      (hlocated x hx).fits hlow, hsize ▸ hentries x hx⟩
  · intro hreached
    have hfits := (hreached c hc).fits
    rw [location] at hfits
    have hmount := modMain_mounted hmod (by omega)
    have hlocated : ∀ x ∈ cs, Located offset h x :=
      fun x hx => (hreached x hx).located hmount (htwo x hx)
    have hlinked := hchain.linked hexact hmount fun x hx => hsize ▸ (hreached x hx).entry
    exact ⟨hlocated, fun off hoff bytes fuel hfuel => hlinked.chainread_located hexact
      (fun x hx => ⟨htwo x hx, hlt x hx⟩) hpos hlocated hoff hfuel⟩

end Bytes

/-! ## Small volumes -/

/-- Sector 1 has the parameters of a volume with 512-byte sectors, and sector 2 the FAT, where
clusters 2 and 3 are chains of their own. -/
def geometry (sectorsPerCluster : UInt8) : List (ℕ × UInt8) :=
  [(524, 2), (525, sectorsPerCluster), (526, 1), (528, 1), (548, 1), (556, 2),
    (1032, 0xff), (1033, 0xff), (1034, 0xff), (1035, 0x0f),
    (1036, 0xff), (1037, 0xff), (1038, 0xff), (1039, 0x0f)]

/-- Such a volume, with the given bytes from cluster 2 on. -/
def volume (sectorsPerCluster : UInt8) (data : List (ℕ × UInt8)) : Disk where
  bytes k := ((geometry sectorsPerCluster ++
    data.map fun x : ℕ × UInt8 => (1536 + x.1, x.2)).lookup k).getD 0
  behind o k := ((geometry sectorsPerCluster ++
    data.map fun x : ℕ × UInt8 => (1536 + x.1, x.2)).lookup (o + k)).getD 0

def volumeHandle (sectorsPerCluster : UInt8) (data : List (ℕ × UInt8)) : Handle where
  bpb := ⟨512, sectorsPerCluster.toNat, 1, 1, 1, 2⟩
  fat := (volume sectorsPerCluster data).read 1024 512
  fatsize := 512
  dataoffset := 1536

theorem volume_exact (spc : UInt8) (data : List (ℕ × UInt8)) : (volume spc data).Exact :=
  fun _ _ => rfl

theorem volume_mounts {spc : UInt8} {data : List (ℕ × UInt8)} (hspc : spc.toNat ≠ 0)
    (h : Bpb.ofBytes ((volume spc data).read 512 512) = ⟨512, spc.toNat, 1, 1, 1, 2⟩) :
    modMain (volume spc data) 512 = .ok (some (volumeHandle spc data)) := by
  simp only [modMain, h, if_neg hspc]
  rfl

/-- With one sector per cluster, the file in cluster 3 is read. -/
theorem chainread_iff_sector :
    modMain (volume 1 [(512, 0x68)]) 512 = .ok (some (volumeHandle 1 [(512, 0x68)])) ∧
    chainread (volume 1 [(512, 0x68)]) (volumeHandle 1 [(512, 0x68)]) 1 3 0 2 true =
      .ok ([0x68, 0], 2) := by
  have hmounts := @volume_mounts 1 [(512, 0x68)] (by decide) (by decide)
  have hreached : ∀ x ∈ [3], Reached 512 (volumeHandle 1 [(512, 0x68)]) x := by
    intro x hx
    rw [List.mem_singleton.mp hx]
    exact ⟨Or.inr rfl, by decide, by decide, by decide⟩
  have hread := ((chainread_iff hmounts (volume_exact _ _)
    (.last (by decide) (by decide)) (by decide)).mpr hreached).2 0 (by decide) 2 1 (by decide)
  exact ⟨hmounts, hread.trans (by decide +kernel)⟩

/-- With two, the second half of cluster 2 is read instead. -/
theorem chainread_other_cluster :
    modMain (volume 2 [(1024, 0x68)]) 512 = .ok (some (volumeHandle 2 [(1024, 0x68)])) ∧
    (volume 2 [(1024, 0x68)]).Exact ∧
    Chain (volume 2 [(1024, 0x68)]) 512 (volumeHandle 2 [(1024, 0x68)]).bpb 3 [3] ∧
    (clusterData (volume 2 [(1024, 0x68)]) 512 (volumeHandle 2 [(1024, 0x68)]).bpb 3).take 1 =
      [0x68] ∧
    chainread (volume 2 [(1024, 0x68)]) (volumeHandle 2 [(1024, 0x68)]) 1 3 0 1 true =
      .ok ([0], 1) := by
  refine ⟨volume_mounts (by decide) (by decide), volume_exact _ _, .last (by decide) (by decide),
    ?_, eq_ok_of_toOption (by decide)⟩
  decide +kernel

/-! ## `fat32_read` -/

/-- `fat32_read(f, path, offset, bytes, buf)`. -/
def fat32Read (d : Disk) (h : Handle) (fuel : ℕ) (path : Path) (offset bytes : ℕ) (buf : Bool) :
    Except Halt (List UInt8 × ℕ) := do
  let e ← lookup d h path
  if ¬ buf then
    if e.isDirectory then .error (.assertion "(e.attrs & FatAttrs::DIRECTORY) == 0")
    else return ([], e.size)
  else if e.size < offset then .error (.assertion "offset <= e.size")
  else chainread d h fuel e.cluster offset bytes true

section Read

variable {d : Disk} {h : Handle} {c volume fuel offset bytes : ℕ} {cs : List ℕ} {path : Path}
  {e : Slot}

/-- The clusters of a file; an empty file may have none. -/
def FileChain (h : Handle) (c : ℕ) (cs : List ℕ) : Prop :=
  (c = 0 ∧ cs = [] ∨ Linked h c cs) ∧ ∀ x ∈ cs, 2 ≤ x ∧ x < 0x0ffffff7

theorem FileChain.skip_all (hchain : FileChain h c cs) : ∃ c', skipLoop h cs.length c = .ok c' := by
  obtain ⟨⟨-, rfl⟩ | hlinked, hcs⟩ := hchain
  · exact ⟨c, rfl⟩
  · exact hlinked.skip_all fun x hx => Nat.lt_succ_of_lt (hcs x hx).2

theorem FileChain.linked (hchain : FileChain h c cs) (hne : cs ≠ []) : Linked h c cs := by
  obtain ⟨⟨-, hnil⟩ | hlinked, -⟩ := hchain
  · exact absurd hnil hne
  · exact hlinked

/-- A loop that has something to read does not return 0, wherever it is. -/
theorem chainLoop_pos {bpc o n : ℕ} {data : List UInt8} (hbytes : bytes ≠ 0) (ho : o < bpc)
    (hrun : chainLoop d h bpc true fuel c o bytes = .ok (data, n)) : n ≠ 0 := by
  cases fuel with
  | zero => cases hrun
  | succ fuel =>
    rw [chainLoop, if_neg hbytes] at hrun
    obtain ⟨piece, -, hrun⟩ := bind_eq_ok.mp hrun
    obtain ⟨next, -, hrun⟩ := bind_eq_ok.mp hrun
    split at hrun
    · have hn := congrArg Prod.snd (Except.ok.inj hrun)
      omega
    · obtain ⟨r, -, hrun⟩ := bind_eq_ok.mp hrun
      have hn := congrArg Prod.snd (Except.ok.inj hrun)
      omega

theorem fat32Read_eq (hlook : lookup d h path = .ok e) (hoffset : offset ≤ e.size) :
    fat32Read d h fuel path offset bytes true = chainread d h fuel e.cluster offset bytes true := by
  rw [fat32Read, hlook, ok_bind, if_neg (not_not_intro rfl), if_neg (Nat.not_lt.mpr hoffset)]

/-- Inside the chain, everything up to its end is read. -/
theorem FileChain.chainread_inside (hbpc : 0 < clusterBytes h.bpb) (hchain : FileChain h c cs)
    (hinside : offset < cs.length * clusterBytes h.bpb) (hfuel : cs.length < fuel) :
    ∃ data, chainread d h fuel c offset bytes true =
        .ok (data, min bytes (cs.length * clusterBytes h.bpb - offset)) ∧
      data.length = min bytes (cs.length * clusterBytes h.bpb - offset) := by
  have hne : cs ≠ [] := by
    rintro rfl
    rw [List.length_nil, Nat.zero_mul] at hinside
    exact absurd hinside (Nat.not_lt_zero _)
  refine ⟨_, (hchain.linked hne).chainread_eq hchain.2 hbpc hinside (Nat.le_of_lt hfuel), ?_⟩
  rw [length_spans (fun x _ => length_pieceRead x) (Nat.le_of_lt (Nat.mod_lt _ hbpc)), remaining_eq]

/-- At the end of the chain, 0 is returned only when nothing was asked for. -/
theorem FileChain.chainread_end (hbpc : 0 < clusterBytes h.bpb) (hchain : FileChain h c cs)
    (hfuel : cs.length < fuel) :
    (∃ data, chainread d h fuel c (cs.length * clusterBytes h.bpb) bytes true = .ok (data, 0) ∧
      data.length = 0) ↔ bytes = 0 := by
  obtain ⟨c', hskip⟩ := hchain.skip_all
  rw [chainread, ← clusterBytes, Nat.mul_div_cancel _ hbpc, Nat.mul_mod_left, hskip, ok_bind,
    if_pos rfl]
  constructor
  · rintro ⟨data, hrun, -⟩
    by_contra hbytes
    exact chainLoop_pos hbytes hbpc hrun rfl
  · rintro rfl
    exact ⟨[], chainLoop_none (Nat.ne_zero_of_lt hfuel), rfl⟩

/-- `fat32_read` of a file returns what is left of it, and stores that much, exactly when no more
was asked for, or when the file fills its last cluster and is not at its end. -/
theorem fat32Read_iff (hmod : modMain d volume = .ok (some h)) (hlook : lookup d h path = .ok e)
    (hchain : FileChain h e.cluster cs) (hsize : e.size ≤ cs.length * clusterBytes h.bpb)
    (hoffset : offset ≤ e.size) (hfuel : cs.length < fuel) :
    (∃ data, fat32Read d h fuel path offset bytes true =
        .ok (data, min bytes (e.size - offset)) ∧ data.length = min bytes (e.size - offset)) ↔
      bytes ≤ e.size - offset ∨ e.size = cs.length * clusterBytes h.bpb ∧ offset < e.size := by
  obtain ⟨hlow, -⟩ := (modMain_eq_some hmod).1.clusterBytes_bounds
  have hbpc : 0 < clusterBytes h.bpb := Nat.lt_of_lt_of_le (by decide) hlow
  rw [fat32Read_eq hlook hoffset]
  by_cases hinside : offset < cs.length * clusterBytes h.bpb
  · obtain ⟨data, hrun, hlen⟩ := @FileChain.chainread_inside d h _ fuel offset bytes cs hbpc hchain
      hinside hfuel
    rw [hrun]
    constructor
    · rintro ⟨data', heq, -⟩
      have hcount := congrArg Prod.snd (Except.ok.inj heq)
      dsimp only at hcount
      omega
    · intro hcond
      have hcount : min bytes (cs.length * clusterBytes h.bpb - offset) =
          min bytes (e.size - offset) := by omega
      exact ⟨data, by rw [hcount], hlen.trans hcount⟩
  · obtain rfl : offset = cs.length * clusterBytes h.bpb := by omega
    have hzero : min bytes (e.size - cs.length * clusterBytes h.bpb) = 0 := by omega
    rw [hzero, hchain.chainread_end hbpc hfuel]
    omega

end Read

/-- A volume label, the file `B` of 5 bytes in cluster 3, and a byte behind the end of it. -/
def oneFile : List (ℕ × UInt8) :=
  [(0, 0x56), (11, 0x08), (32, 0x42), (33, 0x20), (43, 0x20), (58, 3), (60, 5),
    (512, 0x68), (513, 0x65), (514, 0x6c), (515, 0x6c), (516, 0x6f), (517, 0x21)]

theorem oneFile_lookup :
    ∃ e, lookup (volume 1 oneFile) (volumeHandle 1 oneFile) [slash, 0x42] = .ok e ∧
      e.cluster = 3 ∧ e.size = 5 := by
  have hfields : (lookup (volume 1 oneFile) (volumeHandle 1 oneFile) [slash, 0x42]).toOption.map
      (fun e => (e.cluster, e.size)) = some (3, 5) := by decide
  obtain ⟨e, hlook, heq⟩ := Option.map_eq_some_iff.mp hfields
  exact ⟨e, eq_ok_of_toOption hlook, congrArg Prod.fst heq, congrArg Prod.snd heq⟩

theorem oneFile_chain : FileChain (volumeHandle 1 oneFile) 3 [3] :=
  ⟨.inr (.last (by decide) (by decide)), List.forall_mem_singleton.mpr (by decide)⟩

/-- A range inside the file. -/
theorem fat32Read_iff_inside :
    modMain (volume 1 oneFile) 512 = .ok (some (volumeHandle 1 oneFile)) ∧
    ∃ data, fat32Read (volume 1 oneFile) (volumeHandle 1 oneFile) 2 [slash, 0x42] 1 3 true =
      .ok (data, 3) ∧ data.length = 3 := by
  have hmounts := @volume_mounts 1 oneFile (by decide) (by decide)
  obtain ⟨e, hlook, hcluster, hsize⟩ := oneFile_lookup
  have hread := (@fat32Read_iff _ _ 512 2 1 3 [3] _ _ hmounts hlook (hcluster ▸ oneFile_chain)
    (by rw [hsize]; decide) (by rw [hsize]; decide) (by decide)).mpr
    (Or.inl (by rw [hsize]; decide))
  rw [hsize] at hread
  exact ⟨hmounts, hread⟩

/-- What lies behind the file is returned as well. -/
theorem fat32Read_slack :
    modMain (volume 1 oneFile) 512 = .ok (some (volumeHandle 1 oneFile)) ∧
    (∃ e, lookup (volume 1 oneFile) (volumeHandle 1 oneFile) [slash, 0x42] = .ok e ∧
      e.cluster = 3 ∧ e.size = 5) ∧
    FileChain (volumeHandle 1 oneFile) 3 [3] ∧
    fat32Read (volume 1 oneFile) (volumeHandle 1 oneFile) 2 [slash, 0x42] 0 8 true =
      .ok ([0x68, 0x65, 0x6c, 0x6c, 0x6f, 0x21, 0, 0], 8) :=
  ⟨volume_mounts (by decide) (by decide), oneFile_lookup, oneFile_chain,
    eq_ok_of_toOption (by decide)⟩

end NeptunOS.Fat
