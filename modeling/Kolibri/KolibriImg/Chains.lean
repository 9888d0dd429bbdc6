import Kolibri.KolibriImg.Fat
import Kolibri.Lib.Leads

/-! # Chains of clusters

What `allocate_and_write` wrote is what `read_clusters` reads back.
-/

namespace Kolibri.KolibriImg

open Outcome Bytes List Nat

/-! ## The parts of an image -/

namespace Bpb

variable {bpb : Bpb} {i : Nat}

def InFirstFat (bpb : Bpb) (i : Nat) : Prop := bpb.fatOffset ≤ i ∧ i < bpb.fatOffset + bpb.fatSize

theorem InFirstFat.lt_rootOffset (h : bpb.InFirstFat i) (hfats : bpb.fatCount ≠ 0) : i < bpb.rootOffset := by
  have hone : 1 * bpb.fatSize ≤ bpb.fatCount * bpb.fatSize :=
    mul_le_mul_right _ (one_le_iff_ne_zero.mpr hfats)
  have := h.2
  unfold rootOffset
  omega

end Bpb

namespace Image

variable {img img1 img' : Image} {c d i : Nat} {E E' D D' : List Nat}

def clusterAt (img : Image) (c : Nat) : Nat := img.bpb.dataOffset + (c - 2) * img.bpb.clusterSize

def InCluster (img : Image) (c i : Nat) : Prop := img.clusterAt c ≤ i ∧ i < img.clusterAt c + img.bpb.clusterSize

def InData (img : Image) (c : Nat) : Prop := 2 ≤ c ∧ img.clusterAt c + img.bpb.clusterSize ≤ img.data.len

variable {off n max a e first : Nat} {chunk bytes : List (BitVec 8)} {rest chain : List Nat}

theorem clusterOffset_eq_ok : img.clusterOffset c = .ok off ↔ 2 ≤ c ∧ off = img.clusterAt c := by
  unfold clusterOffset
  simp only [bind_eq_ok, require_eq_ok, exists_const, Except.ok.injEq]
  exact and_congr_right fun _ => eq_comm

theorem InFat.inFirstFat (h : img.InFat c) (hi : img.wordAt c ≤ i ∧ i < img.wordAt c + 2) : img.bpb.InFirstFat i := by
  have := h.1
  unfold wordAt at hi
  constructor <;> omega

theorem InCluster.not_inFirstFat (h : img.InCluster c i) (hfats : img.bpb.fatCount ≠ 0) : ¬ img.bpb.InFirstFat i := by
  intro hfat
  have := hfat.lt_rootOffset hfats
  have := h.1
  unfold clusterAt Bpb.dataOffset at this
  omega

theorem InCluster.eq (hc : 2 ≤ c) (hd : 2 ≤ d) (h : img.InCluster c i) (h' : img.InCluster d i) : c = d := by
  obtain ⟨hlo, hhi⟩ := h
  obtain ⟨hlo', hhi'⟩ := h'
  unfold clusterAt at *
  rcases lt_trichotomy c d with hlt | heq | hlt
  · have := mul_le_mul_right img.bpb.clusterSize (show c - 2 + 1 ≤ d - 2 by omega)
    rw [add_mul, one_mul] at this
    omega
  · exact heq
  · have := mul_le_mul_right img.bpb.clusterSize (show d - 2 + 1 ≤ c - 2 by omega)
    rw [add_mul, one_mul] at this
    omega

/-! ## What a step may change -/

structure Touches (img img' : Image) (E D : List Nat) : Prop where
  bpb : img'.bpb = img.bpb
  len : img'.data.len = img.data.len
  entry : ∀ c, img.InFat c → c ∉ E → img'.fatEntry c = img.fatEntry c
  bytes : ∀ i, ¬ img.bpb.InFirstFat i → (∀ c ∈ D, ¬ img.InCluster c i) → img'.data.bytes i = img.data.bytes i

namespace Touches

theorem refl (img : Image) : Touches img img [] [] := ⟨rfl, rfl, fun _ _ _ => rfl, fun _ _ _ => rfl⟩

theorem clusterAt (h : Touches img img' E D) (c : Nat) : img'.clusterAt c = img.clusterAt c := by
  unfold Image.clusterAt
  rw [h.bpb]

theorem inCluster (h : Touches img img' E D) : img'.InCluster c i ↔ img.InCluster c i := by
  unfold InCluster
  rw [h.clusterAt, h.bpb]

theorem inData (h : Touches img img' E D) : img'.InData c ↔ img.InData c := by
  unfold InData
  rw [h.clusterAt, h.bpb, h.len]

theorem inFat (h : Touches img img' E D) : img'.InFat c ↔ img.InFat c := by
  unfold InFat wordAt
  rw [h.bpb, h.len]

theorem goesOn (h : Touches img img' E D) : img'.goesOn c = img.goesOn c := by
  unfold Image.goesOn isEoc
  rw [h.bpb]

theorem mono (h : Touches img img' E D) (hE : E ⊆ E') (hD : D ⊆ D') : Touches img img' E' D' where
  bpb := h.bpb
  len := h.len
  entry c hc hcE := h.entry c hc fun hc => hcE (hE hc)
  bytes i hfat hi := h.bytes i hfat fun c hc => hi c (hD hc)

theorem trans (h : Touches img img1 E D) (h' : Touches img1 img' E D) : Touches img img' E D where
  bpb := h'.bpb.trans h.bpb
  len := h'.len.trans h.len
  entry c hc hE := (h'.entry c (h.inFat.mpr hc) hE).trans (h.entry c hc hE)
  bytes i hfat hi := by
    rw [h'.bytes i (by rwa [h.bpb]) fun c hc hin => hi c hc (h.inCluster.mp hin)]
    exact h.bytes i hfat hi

end Touches

theorem touches_setEntry (hc : img.InFat c) (v : Nat) : Touches img (img.setEntry c v) [c] [] where
  bpb := rfl
  len := rfl
  entry d _ hd := img.fatEntry_setEntry_of_ne v (by simpa using hd)
  bytes i hfat _ := setEntry_bytes (by
    by_contra hin
    exact hfat (hc.inFirstFat (by omega)))

theorem touches_fillCluster (hfats : img.bpb.fatCount ≠ 0) (hchunk : chunk.length ≤ img.bpb.clusterSize) :
    Touches img (img.fillCluster (img.clusterAt c) chunk) [] [c] := by
  have hout : ∀ i, ¬ img.InCluster c i →
      (img.fillCluster (img.clusterAt c) chunk).data.bytes i = img.data.bytes i := by
    intro i hi
    unfold InCluster at hi
    simp only [fillCluster]
    rcases lt_or_ge i (img.clusterAt c) with h | h
    · rw [Buffer.overlay_of_lt _ _ h, Buffer.overlay_of_lt _ _ h]
    · rw [Buffer.overlay_of_ge _ (by omega), Buffer.overlay_of_ge _ (by rw [length_replicate]; omega)]
  refine ⟨rfl, rfl, fun d hd _ => ?_, fun i _ hi => hout i (hi c mem_cons_self)⟩
  refine fatEntry_congr rfl fun i hlo hhi => hout i fun hin => ?_
  exact hin.not_inFirstFat hfats (hd.inFirstFat ⟨hlo, hhi⟩)

/-! ## Bytes of clusters -/

theorem slice_congr (h : ∀ i, off ≤ i → i < off + n → img'.data.bytes i = img.data.bytes i) :
    img'.slice off n = img.slice off n := by
  apply map_congr_left
  intro i hi
  have := mem_range.mp hi
  exact h (off + i) (by omega) (by omega)

@[simp] theorem length_slice (img : Image) (off n : Nat) : (img.slice off n).length = n := by
  simp [slice]

theorem slice_fillCluster (img : Image) (off : Nat) (hchunk : chunk.length ≤ img.bpb.clusterSize) :
    (img.fillCluster off chunk).slice off img.bpb.clusterSize =
      chunk ++ List.replicate (img.bpb.clusterSize - chunk.length) 0 := by
  apply ext_getElem
  · simp
    omega
  intro i hi _
  simp only [slice, fillCluster, getElem_map, getElem_range]
  rcases lt_or_ge i chunk.length with h | h
  · rw [Buffer.stands_overlay _ _ _ i h, getElem_append_left h]
  · rw [Buffer.overlay_of_ge _ (by omega), getElem_append_right h, getElem_replicate,
      Buffer.stands_overlay _ _ _ i (by simpa using hi), getElem_replicate]

def contents (img : Image) (chain : List Nat) : List (BitVec 8) :=
  chain.flatMap fun c => img.slice (img.clusterAt c) img.bpb.clusterSize

theorem contents_cons (img : Image) (c : Nat) (chain : List Nat) :
    img.contents (c :: chain) = img.slice (img.clusterAt c) img.bpb.clusterSize ++ img.contents chain :=
  flatMap_cons

theorem length_contents (img : Image) (chain : List Nat) :
    (img.contents chain).length = chain.length * img.bpb.clusterSize := by
  simp [contents, length_flatMap]

theorem Touches.slice_cluster (h : Touches img img' E D) (hfats : img.bpb.fatCount ≠ 0) (hc : 2 ≤ c)
    (hD : ∀ d ∈ D, 2 ≤ d) (hcD : c ∉ D) :
    img'.slice (img'.clusterAt c) img'.bpb.clusterSize = img.slice (img.clusterAt c) img.bpb.clusterSize := by
  rw [h.clusterAt, h.bpb]
  refine slice_congr fun i hlo hhi => h.bytes i (InCluster.not_inFirstFat ⟨hlo, hhi⟩ hfats) fun d hd hin => ?_
  exact hcD (hin.eq (hD d hd) hc ⟨hlo, hhi⟩ ▸ hd)

/-! ## The number of clusters -/

structure Sized (img : Image) : Prop where
  len : img.data.len = img.bpb.totalSectors * img.bpb.bytesPerSector
  clusters : img.bpb.clusters < 65525

theorem Touches.sized (h : Touches img img' E D) (hsized : img.Sized) : img'.Sized := by
  constructor
  · rw [h.len, h.bpb, hsized.len]
  · rw [h.bpb]
    exact hsized.clusters

theorem Sized.data_sectors_le (h : img.Sized) (hbps : 0 < img.bpb.bytesPerSector) :
    (img.data.len - img.bpb.dataOffset) / img.bpb.bytesPerSector ≤ img.bpb.dataSectors := by
  have hround : img.bpb.rootDirSectors * img.bpb.bytesPerSector ≤ img.bpb.rootSize + (img.bpb.bytesPerSector - 1) :=
    Nat.div_mul_le_self _ _
  have hsum : img.bpb.totalSectors ≤ img.bpb.reservedSectors + img.bpb.fatCount * img.bpb.sectorsPerFat +
      img.bpb.rootDirSectors + img.bpb.dataSectors := by
    unfold Bpb.dataSectors
    omega
  have hbytes := Nat.mul_le_mul_right img.bpb.bytesPerSector hsum
  rw [Nat.add_mul, Nat.add_mul, Nat.add_mul, Nat.mul_assoc] at hbytes
  rw [← Nat.lt_add_one_iff, Nat.div_lt_iff_lt_mul hbps, Nat.add_mul, Nat.one_mul, h.len]
  unfold Bpb.dataOffset Bpb.rootOffset Bpb.fatOffset Bpb.fatSize
  omega

theorem Sized.clusters_le (h : img.Sized) (hcs : img.bpb.clusterSize ≠ 0) :
    (img.data.len - img.bpb.dataOffset) / img.bpb.clusterSize ≤ img.bpb.clusters := by
  obtain ⟨hspc, hbps⟩ := Nat.mul_ne_zero_iff.mp hcs
  unfold Bpb.clusters Bpb.clusterSize
  rw [if_neg hspc, Nat.mul_comm, ← Nat.div_div_eq_div_mul]
  exact Nat.div_le_div_right (h.data_sectors_le (Nat.pos_of_ne_zero hbps))

theorem Sized.max_lt_eocMin (h : img.Sized) (hmax : img.maxCluster = .ok max) : max < img.bpb.fatKind.eocMin := by
  unfold maxCluster at hmax
  simp only [bind_eq_ok, within_eq_ok, exists_const, Except.ok.injEq] at hmax
  obtain ⟨hcs, rfl⟩ := hmax
  have hle := h.clusters_le hcs
  have hlt := h.clusters
  have hmod := mod_le ((img.data.len - img.bpb.dataOffset) / img.bpb.clusterSize) (2 ^ 32)
  generalize (img.data.len - img.bpb.dataOffset) / img.bpb.clusterSize % 2 ^ 32 = n at *
  unfold Bpb.fatKind
  split
  · simp only [FatKind.eocMin]
    omega
  · simp only [FatKind.eocMin]
    omega

/-! ## Allocation -/

theorem allocLoop_spec {left : Nat} (h : img.allocLoop left a = .ok (c, img')) :
    a ≤ c ∧ c < a + left ∧ img.InFat c ∧ img.fatEntry c = 0 ∧ img' = img.setEntry c img.eocValue := by
  induction left generalizing a with
  | zero => exact absurd h fail_ne_ok
  | succ left ih =>
    rw [allocLoop, bind_eq_ok] at h
    obtain ⟨value, hget, h⟩ := h
    obtain ⟨hin, rfl⟩ := fatGet_eq_ok.mp hget
    split at h
    · rename_i hzero
      rw [bind_eq_ok] at h
      obtain ⟨img1, hset, h⟩ := h
      cases h
      exact ⟨le_rfl, by omega, hin, hzero, (fatSet_eq_ok.mp hset).2⟩
    · obtain ⟨hle, hlt, hrest⟩ := ih h
      exact ⟨by omega, by omega, hrest⟩

structure Fresh (img : Image) (c : Nat) : Prop where
  two_le : 2 ≤ c
  lt_eocMin : c < img.bpb.fatKind.eocMin
  inFat : img.InFat c
  free : img.fatEntry c = 0

theorem allocCluster_spec (hsized : img.Sized) (h : img.allocCluster = .ok (c, img')) :
    img.Fresh c ∧ img' = img.setEntry c img.eocValue := by
  rw [allocCluster, bind_eq_ok] at h
  obtain ⟨max, hmax, h⟩ := h
  obtain ⟨hle, hlt, hin, hfree, heq⟩ := allocLoop_spec h
  have := hsized.max_lt_eocMin hmax
  exact ⟨⟨hle, by omega, hin, hfree⟩, heq⟩

theorem Touches.fresh_of_fresh (h : Touches img img' [] D) (hc : img'.Fresh c) : img.Fresh c where
  two_le := hc.two_le
  lt_eocMin := by
    rw [← h.bpb]
    exact hc.lt_eocMin
  inFat := h.inFat.mp hc.inFat
  free := (h.entry c (h.inFat.mp hc.inFat) (by simp)).symm.trans hc.free

theorem fatEntry_setEntry_of_lt {v : Nat} (hv : v ≤ img.bpb.fatKind.eocValue) :
    (img.setEntry c v).fatEntry c = v := by
  rw [fatEntry_setEntry_self]
  have := img.bpb.fatKind.eocValue_lt
  exact mod_eq_of_lt (by omega)

theorem goesOn_iff : img.goesOn c = true ↔ 2 ≤ c ∧ c < img.bpb.fatKind.eocMin := by
  simp [goesOn, isEoc]

abbrev ChainOf (img : Image) (a : Nat) (chain : List Nat) (last : Nat) : Prop :=
  Leads img.fatEntry (fun c => img.goesOn c = true) a chain last

/-! ## Writing -/

structure Written (img img' : Image) (first : Nat) (rest : List Nat) (bytes : List (BitVec 8)) : Prop where
  touches : Touches img img' (first :: rest) (first :: rest)
  leads : ∃ e, img'.isEoc e ∧ img'.ChainOf first (first :: rest) e
  inFat : ∀ c ∈ first :: rest, img.InFat c
  inData : ∀ c ∈ first :: rest, img.InData c
  free : ∀ c ∈ rest, img.fatEntry c = 0
  contents : ∃ k < img.bpb.clusterSize, img'.contents (first :: rest) = bytes ++ List.replicate k 0

theorem written_last (hfats : img.bpb.fatCount ≠ 0) (hc : img.InFat c) (hgo : img.goesOn c = true)
    (hdata : img.InData c) (hne : bytes ≠ []) (hle : bytes.length ≤ img.bpb.clusterSize) :
    Written img ((img.fillCluster (img.clusterAt c) bytes).setEntry c img.eocValue) c [] bytes := by
  have hfill := touches_fillCluster (c := c) hfats hle
  have hset := touches_setEntry (hfill.inFat.mpr hc) img.eocValue
  have hall := (hfill.mono (nil_subset [c]) (List.Subset.refl [c])).trans
    (hset.mono (List.Subset.refl [c]) (nil_subset [c]))
  have heoc := img.bpb.fatKind.eocMin_le_eocValue
  have hpos := length_pos_of_ne_nil hne
  refine ⟨hall, ⟨img.eocValue, decide_eq_true heoc, ?_⟩, by simpa using hc, by simpa using hdata, by simp, ?_⟩
  · refine .step (by rw [hall.goesOn, hgo]) ?_
    rw [fatEntry_setEntry_of_lt (by exact le_rfl)]
    refine .stop ?_
    rw [hall.goesOn, goesOn_iff]
    exact fun h => absurd h.2 (not_lt.mpr heoc)
  · refine ⟨img.bpb.clusterSize - bytes.length, by omega, ?_⟩
    rw [← img.slice_fillCluster (img.clusterAt c) hle, contents_cons]
    exact (append_nil _).trans (hset.slice_cluster hfats hdata.1 (by simp) (by simp))

def linkNext (img : Image) (c : Nat) (chunk : List (BitVec 8)) (next : Nat) : Image :=
  ((img.fillCluster (img.clusterAt c) chunk).setEntry next img.eocValue).setEntry c next

section Link

variable {chunk : List (BitVec 8)} {next : Nat}

@[simp] theorem linkNext_bpb : (img.linkNext c chunk next).bpb = img.bpb := rfl

theorem touches_linkNext (hfats : img.bpb.fatCount ≠ 0) (hlen : chunk.length = img.bpb.clusterSize)
    (hc : img.InFat c) (hnext : img.InFat next) :
    Touches img (img.linkNext c chunk next) [c, next] [c] ∧
      Touches (img.fillCluster (img.clusterAt c) chunk) (img.linkNext c chunk next) [c, next] [] := by
  have hfill := touches_fillCluster (c := c) hfats (le_of_eq hlen)
  have hmark := touches_setEntry (hfill.inFat.mpr hnext) img.eocValue
  have hlink := touches_setEntry (hmark.inFat.mpr (hfill.inFat.mpr hc)) next
  have hset : Touches _ (img.linkNext c chunk next) [c, next] [] :=
    (hmark.mono (by simp) (List.Subset.refl _)).trans (hlink.mono (by simp) (List.Subset.refl _))
  exact ⟨(hfill.mono (by simp) (List.Subset.refl _)).trans (hset.mono (List.Subset.refl _) (by simp)), hset⟩

theorem fatEntry_linkNext (img : Image) (c : Nat) (chunk : List (BitVec 8)) (h : next ≤ img.bpb.fatKind.eocValue) :
    (img.linkNext c chunk next).fatEntry c = next :=
  fatEntry_setEntry_of_lt h

theorem fatEntry_linkNext_next (h : next ≠ c) : (img.linkNext c chunk next).fatEntry next = img.eocValue := by
  unfold linkNext
  rw [fatEntry_setEntry_of_ne _ _ h]
  exact fatEntry_setEntry_of_lt le_rfl

theorem written_cons (hfats : img.bpb.fatCount ≠ 0) (hc : img.InFat c) (hgo : img.goesOn c = true)
    (hdata : img.InData c) (hused : img.fatEntry c ≠ 0) (hlen : chunk.length = img.bpb.clusterSize)
    (hnext : img.Fresh next) (h : Written (img.linkNext c chunk next) img' next rest bytes) :
    Written img img' c (next :: rest) (chunk ++ bytes) := by
  obtain ⟨htouch, hset⟩ := touches_linkNext hfats hlen hc hnext.inFat
  have hslice := img.slice_fillCluster (img.clusterAt c) (le_of_eq hlen)
  have hentry := fatEntry_linkNext img c chunk
    (hnext.lt_eocMin.le.trans img.bpb.fatKind.eocMin_le_eocValue)
  have hbpb : (img.linkNext c chunk next).bpb = img.bpb := rfl
  generalize img.linkNext c chunk next = linked at *
  obtain ⟨e, he, hleads⟩ := h.leads
  have hcn : c ≠ next := by
    rintro rfl
    exact hused hnext.free
  -- the cluster is in use by now, so the rest of the chain does not come back to it
  have hcrest : c ∉ rest := by
    intro hmem
    have := h.free c hmem
    have := hnext.two_le
    omega
  have hout : c ∉ next :: rest := by simp [hcn, hcrest]
  have hall : Touches img img' (c :: next :: rest) (c :: next :: rest) :=
    (htouch.mono (by simp) (by simp)).trans
      (h.touches.mono (subset_cons_self _ _) (subset_cons_self _ _))
  refine ⟨hall, ⟨e, he, .step (by rw [hall.goesOn, hgo]) ?_⟩, ?_, ?_, ?_, ?_⟩
  · rw [h.touches.entry c (htouch.inFat.mpr hc) hout, hentry]
    exact hleads
  · rintro d hd
    rcases mem_cons.mp hd with rfl | hd
    · exact hc
    · exact htouch.inFat.mp (h.inFat d hd)
  · rintro d hd
    rcases mem_cons.mp hd with rfl | hd
    · exact hdata
    · exact htouch.inData.mp (h.inData d hd)
  · intro d hmem
    rcases mem_cons.mp hmem with rfl | hd
    · exact hnext.free
    have hdn : d ≠ next := by
      rintro rfl
      exact (nodup_cons.mp hleads.nodup).1 hd
    have hdc : d ≠ c := by
      rintro rfl
      exact hcrest hd
    rw [← htouch.entry d (htouch.inFat.mp (h.inFat d hmem)) (by simp [hdn, hdc]), h.free d hd]
  · obtain ⟨k, hk, hcontents⟩ := h.contents
    refine ⟨k, by rwa [hbpb] at hk, ?_⟩
    rw [contents_cons, hcontents, append_assoc]
    congr 1
    rw [h.touches.slice_cluster (by rwa [hbpb]) hdata.1 (fun d hd => (h.inData d hd).1) hout,
      hset.slice_cluster hfats hdata.1 (by simp) (by simp)]
    refine hslice.trans ?_
    rw [hlen, Nat.sub_self, replicate_zero, append_nil]

end Link

theorem writeLoop_spec (hfats : img.bpb.fatCount ≠ 0) (hsized : img.Sized) {fuel : Nat} {bytes : List (BitVec 8)}
    (hne : bytes ≠ []) (hc : img.InFat c) (hgo : img.goesOn c = true) (hused : img.fatEntry c ≠ 0)
    (h : writeLoop fuel img c bytes = .ok img') : ∃ rest, Written img img' c rest bytes := by
  induction fuel generalizing img c bytes with
  | zero => cases h
  | succ fuel ih =>
    rw [writeLoop, bind_eq_ok] at h
    obtain ⟨off, hoff, h⟩ := h
    obtain ⟨htwo, rfl⟩ := clusterOffset_eq_ok.mp hoff
    rw [bind_eq_ok] at h
    obtain ⟨_, hend, h⟩ := h
    rw [require_eq_ok] at hend
    have hdata : img.InData c := ⟨htwo, hend⟩
    dsimp only at h
    split at h
    · -- the rest fits into this cluster
      rename_i hdone
      have hle : bytes.length ≤ img.bpb.clusterSize := by
        have := drop_eq_nil_iff.mp hdone
        omega
      rw [show min bytes.length img.bpb.clusterSize = bytes.length by omega, take_length] at h
      obtain ⟨-, rfl⟩ := fatSet_eq_ok.mp h
      exact ⟨[], written_last hfats hc hgo hdata hne hle⟩
    rename_i hmore
    have hlt : img.bpb.clusterSize < bytes.length := by
      by_contra hle
      exact hmore (drop_eq_nil_iff.mpr (by omega))
    rw [show min bytes.length img.bpb.clusterSize = img.bpb.clusterSize by omega] at h hmore
    have htake : (bytes.take img.bpb.clusterSize).length = img.bpb.clusterSize := by
      rw [length_take]
      omega
    have hfill := touches_fillCluster (c := c) hfats (le_of_eq htake)
    rw [bind_eq_ok] at h
    obtain ⟨⟨next, img1⟩, halloc, h⟩ := h
    obtain ⟨hfresh, rfl⟩ := allocCluster_spec (hfill.sized hsized) halloc
    have hnext := hfill.fresh_of_fresh hfresh
    rw [bind_eq_ok] at h
    obtain ⟨img2, hset, h⟩ := h
    obtain ⟨-, rfl⟩ := fatSet_eq_ok.mp hset
    obtain ⟨htouch, -⟩ := touches_linkNext hfats htake hc hnext.inFat
    have hnc : next ≠ c := by
      rintro rfl
      exact hused hnext.free
    obtain ⟨rest, hrest⟩ := @ih (img.linkNext c (bytes.take img.bpb.clusterSize) next) next hfats
      (htouch.sized hsized) (bytes.drop img.bpb.clusterSize) hmore (htouch.inFat.mpr hnext.inFat)
      (goesOn_iff.mpr ⟨hnext.two_le, hnext.lt_eocMin⟩)
      (by rw [fatEntry_linkNext_next hnc]; exact img.bpb.fatKind.eocValue_ne_zero) h
    have hwritten := written_cons hfats hc hgo hdata hused htake hnext hrest
    rw [take_append_drop] at hwritten
    exact ⟨next :: rest, hwritten⟩

/-! ## Reading back -/

theorem readLoop_leads {fuel : Nat} {out : List (BitVec 8)} (h : img.ChainOf a chain e)
    (hin : ∀ c ∈ chain, img.InFat c ∧ img.InData c) (hfuel : chain.length < fuel)
    (henough : n ≤ out.length + chain.length * img.bpb.clusterSize)
    (hneeded : out.length + chain.length * img.bpb.clusterSize < n + img.bpb.clusterSize) :
    img.readLoop (some n) fuel a out = .ok (out ++ img.contents chain) := by
  induction h generalizing fuel out with
  | stop hstop =>
    obtain ⟨fuel, rfl⟩ := exists_eq_succ_of_ne_zero (ne_of_gt hfuel)
    rw [readLoop, if_neg hstop]
    simp [contents]
  | @step a e l hgo hrest ih =>
    obtain ⟨fuel, rfl⟩ := exists_eq_succ_of_ne_zero (show fuel ≠ 0 by omega)
    obtain ⟨hfat, hdata⟩ := hin a mem_cons_self
    rw [length_cons, add_mul, one_mul] at henough hneeded
    rw [length_cons] at hfuel
    rw [readLoop, if_pos hgo, clusterOffset_eq_ok.mpr ⟨hdata.1, rfl⟩, ok_bind, require_of_pos hdata.2, ok_bind,
      contents_cons, ← append_assoc]
    dsimp only [Option.any_some]
    have hlen : (out ++ img.slice (img.clusterAt a) img.bpb.clusterSize).length = out.length + img.bpb.clusterSize := by
      simp
    rw [hlen]
    by_cases hreached : n ≤ out.length + img.bpb.clusterSize
    · -- the last cluster is the first one that makes the length
      have hl : l = [] := by
        have hlt : l.length * img.bpb.clusterSize < 1 * img.bpb.clusterSize := by omega
        have := lt_of_mul_lt_mul_right hlt
        exact length_eq_zero_iff.mp (by omega)
      rw [if_pos (by simpa using hreached), hl]
      simp [contents]
    · rw [if_neg (by simpa using hreached), fatGet_eq_ok.mpr ⟨hfat, rfl⟩, ok_bind]
      exact ih (fun c hc => hin c (mem_cons_of_mem a hc)) (by omega) (by omega) (by omega)

theorem chain_length_le (h : img.ChainOf a chain e) : chain.length ≤ chainLimit := by
  have hsub : chain.toFinset ⊆ Finset.range img.bpb.fatKind.eocMin := by
    intro c hc
    exact Finset.mem_range.mpr (goesOn_iff.mp (h.goes_of_mem (mem_toFinset.mp hc))).2
  have hcard := Finset.card_le_card hsub
  rw [toFinset_card_of_nodup h.nodup, Finset.card_range] at hcard
  have : img.bpb.fatKind.eocMin ≤ 0xFFF8 := by cases img.bpb.fatKind <;> decide
  unfold chainLimit
  omega

def Linked (img : Image) : List Nat → Prop
  | [] => False
  | [c] => ∃ v, img.fatGet c = .ok v ∧ img.isEoc v
  | c :: d :: l => img.fatGet c = .ok d ∧ img.Linked (d :: l)

theorem linked_of_leads {l : List Nat} (he : img.isEoc e) (h : img.ChainOf a (a :: l) e)
    (hin : ∀ c ∈ a :: l, img.InFat c) : img.Linked (a :: l) := by
  induction l generalizing a with
  | nil =>
    cases h with
    | step _ hrest =>
      cases hrest
      exact ⟨_, fatGet_eq_ok.mpr ⟨hin a mem_cons_self, rfl⟩, he⟩
  | cons d l ih =>
    cases h with
    | step _ hrest =>
      have hd : img.fatEntry a = d := by
        cases hrest
        rfl
      rw [hd] at hrest
      exact ⟨fatGet_eq_ok.mpr ⟨hin a mem_cons_self, hd.symm⟩, ih hrest fun c hc => hin c (mem_cons_of_mem a hc)⟩

theorem Written.of_mark (hfirst : img.InFat first)
    (h : Written (img.setEntry first img.eocValue) img' first rest bytes) : Written img img' first rest bytes := by
  have hmark := touches_setEntry hfirst img.eocValue
  obtain ⟨e, -, hleads⟩ := h.leads
  refine ⟨(hmark.mono (by simp) (by simp)).trans h.touches, h.leads, fun c hc => hmark.inFat.mp (h.inFat c hc),
    fun c hc => hmark.inData.mp (h.inData c hc), fun c hc => ?_, h.contents⟩
  have hne : c ≠ first := by
    rintro rfl
    exact (nodup_cons.mp hleads.nodup).1 hc
  rw [← h.free c hc, fatEntry_setEntry_of_ne _ _ hne]

theorem allocateAndWrite_spec (hfats : img.bpb.fatCount ≠ 0) (hsized : img.Sized) {bytes : List (BitVec 8)}
    (hne : bytes ≠ []) {start : Nat} (h : img.allocateAndWrite bytes = .ok (start, img')) :
    img.Fresh start ∧ ∃ rest, Written img img' start rest bytes := by
  rw [allocateAndWrite, bind_eq_ok] at h
  obtain ⟨⟨first, img1⟩, halloc, h⟩ := h
  obtain ⟨hfirst, rfl⟩ := allocCluster_spec hsized halloc
  rw [bind_eq_ok] at h
  obtain ⟨img2, hloop, h⟩ := h
  have hmark := touches_setEntry hfirst.inFat img.eocValue
  have hgo : img.goesOn first = true := goesOn_iff.mpr ⟨hfirst.two_le, hfirst.lt_eocMin⟩
  have hused : (img.setEntry first img.eocValue).fatEntry first ≠ 0 := by
    rw [fatEntry_setEntry_of_lt (by exact le_rfl)]
    exact img.bpb.fatKind.eocValue_ne_zero
  obtain ⟨rest, hrest⟩ := @writeLoop_spec (img.setEntry first img.eocValue) _ _ hfats (hmark.sized hsized) _ _ hne
    (hmark.inFat.mpr hfirst.inFat) (hmark.goesOn.trans hgo) hused hloop
  have hstart : first % 2 ^ 16 = first := by
    have := hfirst.lt_eocMin
    have := img.bpb.fatKind.eocMin_lt
    exact mod_eq_of_lt (by omega)
  cases h
  rw [hstart]
  exact ⟨hfirst, rest, hrest.of_mark hfirst.inFat⟩

theorem Written.length (h : Written img img' first rest bytes) :
    bytes.length ≤ (first :: rest).length * img.bpb.clusterSize ∧
      (first :: rest).length * img.bpb.clusterSize < bytes.length + img.bpb.clusterSize := by
  obtain ⟨k, hk, hcontents⟩ := h.contents
  have hlen := img'.length_contents (first :: rest)
  rw [hcontents, length_append, length_replicate, h.touches.bpb] at hlen
  omega

theorem Written.readClusters (h : Written img img' first rest bytes) :
    ∃ out, img'.readClusters first (some bytes.length) = .ok out ∧ out.take bytes.length = bytes := by
  obtain ⟨e, -, hleads⟩ := h.leads
  obtain ⟨hle, hlt⟩ := h.length
  obtain ⟨k, -, hcontents⟩ := h.contents
  have htwo := (h.inData first mem_cons_self).1
  refine ⟨img'.contents (first :: rest), ?_, ?_⟩
  · rw [Image.readClusters, if_neg (by omega)]
    rw [readLoop_leads hleads]
    · rfl
    · exact fun c hc => ⟨h.touches.inFat.mpr (h.inFat c hc), h.touches.inData.mpr (h.inData c hc)⟩
    · have := chain_length_le hleads
      omega
    · rw [h.touches.bpb]
      simpa using hle
    · rw [h.touches.bpb]
      simpa using hlt
  · rw [hcontents, take_left]

/-- What was written is read back, from a chain of as many clusters as the bytes need. -/
theorem readClusters_allocateAndWrite (hlen : img.data.len = img.bpb.totalSectors * img.bpb.bytesPerSector)
    (hclusters : img.bpb.clusters < 65525) (hfats : img.bpb.fatCount ≠ 0) {bytes : List (BitVec 8)} (hne : bytes ≠ [])
    {start : Nat} (h : img.allocateAndWrite bytes = .ok (start, img')) :
    (∃ out, img'.readClusters start (some bytes.length) = .ok out ∧ out.take bytes.length = bytes) ∧
      ∃ chain, chain.head? = some start ∧
        chain.length = (bytes.length + img.bpb.clusterSize - 1) / img.bpb.clusterSize ∧ chain.Nodup ∧
        (∀ c ∈ chain, img.fatGet c = .ok 0) ∧ img'.Linked chain := by
  obtain ⟨hfresh, rest, hwritten⟩ := allocateAndWrite_spec hfats ⟨hlen, hclusters⟩ hne h
  obtain ⟨e, he, hleads⟩ := hwritten.leads
  refine ⟨hwritten.readClusters, start :: rest, rfl, ?_, hleads.nodup, ?_, ?_⟩
  · obtain ⟨hle, hlt⟩ := hwritten.length
    symm
    apply Nat.div_eq_of_lt_le
    · omega
    · rw [Nat.add_mul, Nat.one_mul]
      omega
  · intro c hc
    refine fatGet_eq_ok.mpr ⟨hwritten.inFat c hc, ?_⟩
    rcases mem_cons.mp hc with rfl | hc
    · exact hfresh.free.symm
    · exact (hwritten.free c hc).symm
  · exact linked_of_leads he hleads fun c hc => hwritten.touches.inFat.mpr (hwritten.inFat c hc)

def bootSector (fatCount rootEntries totalSectors : BitVec 8) : Nat → BitVec 8 :=
  let counts : List (BitVec 8) := [0, 2, 1, 1, 0, fatCount, rootEntries, 0, totalSectors, 0, 0xF8, 1, 0]
  Buffer.overlay (Buffer.overlay (fun _ => 0) 11 counts) 510 [0x55, 0xAA]

def smallImage (fatCount : Nat) : Image where
  data := { len := 1536, bytes := bootSector (BitVec.ofNat 8 fatCount) 0 3 }
  bpb := {
    bytesPerSector := 512, sectorsPerCluster := 1, reservedSectors := 1, fatCount := fatCount
    rootEntries := 0, totalSectors := 3, sectorsPerFat := 1 }

theorem readClusters_allocateAndWrite_small : ∃ start img',
    (smallImage 1).allocateAndWrite [1, 2, 3, 4, 5] = .ok (start, img') ∧
      ∃ out, img'.readClusters start (some 5) = .ok out ∧ out.take 5 = [1, 2, 3, 4, 5] := by
  have hok : ((smallImage 1).allocateAndWrite [1, 2, 3, 4, 5]).toOption.isSome := by decide +kernel
  cases h : (smallImage 1).allocateAndWrite [1, 2, 3, 4, 5] with
  | error e =>
    rw [h] at hok
    cases hok
  | ok p =>
    exact ⟨p.1, p.2, rfl, (readClusters_allocateAndWrite (by decide) (by decide) (by decide) (by decide) h).1⟩

/-- With no FAT the entries lie in the first cluster, and its end mark spoils the bytes. -/
theorem readClusters_allocateAndWrite_no_fat :
    ¬ ∀ (img img' : Image) (bytes : List (BitVec 8)) (start : Nat), Bpb.parse img.data = .ok img.bpb →
      img.data.len = img.bpb.totalSectors * img.bpb.bytesPerSector → img.bpb.clusterSize ≠ 0 →
      img.bpb.clusters < 65525 → bytes ≠ [] → img.allocateAndWrite bytes = .ok (start, img') →
      ∃ out, img'.readClusters start (some bytes.length) = .ok out ∧ out.take bytes.length = bytes := by
  intro hall
  have hread : ((smallImage 0).allocateAndWrite [1, 2, 3, 4, 5] >>= fun p =>
      (p.2.readClusters p.1 (some 5)).map (List.take 5)).toOption = some [1, 2, 3, 0xFF, 0x0F] := by decide +kernel
  cases h : (smallImage 0).allocateAndWrite [1, 2, 3, 4, 5] with
  | error e =>
    rw [h] at hread
    cases hread
  | ok p =>
    have hparse : Bpb.parse (smallImage 0).data = .ok (smallImage 0).bpb := by rfl
    obtain ⟨out, hout, htake⟩ := hall (smallImage 0) p.2 [1, 2, 3, 4, 5] p.1 hparse (by decide) (by decide) (by decide)
      (by decide) h
    rw [h, ok_bind, show p.2.readClusters p.1 (some 5) = .ok out from hout] at hread
    have heq : out.take 5 = [1, 2, 3, 0xFF, 0x0F] := by simpa [Except.map, Except.toOption] using hread
    rw [show out.take 5 = [1, 2, 3, 4, 5] from htake] at heq
    exact absurd heq (by decide)

end Image

end Kolibri.KolibriImg
