import Kolibri.KolibriImg.Chains

/-! # What the commands change -/

namespace Kolibri.KolibriImg

open Outcome Bytes List

namespace Image

variable {img img1 img' : Image} {c i t start : Nat} {E E' D D' : List Nat}

/-! ## Freeing -/

theorem freeLoop_touches {fuel : Nat} (h : freeLoop fuel img c = .ok img') :
    ∃ E, Touches img img' E [] ∧ ∀ chain e, img.ChainOf c chain e → E ⊆ chain := by
  induction fuel generalizing img c with
  | zero => exact absurd h fail_ne_ok
  | succ fuel ih =>
    rw [freeLoop] at h
    split at h
    · rename_i hgo
      rw [bind_eq_ok] at h
      obtain ⟨next, hget, h⟩ := h
      obtain ⟨hin, rfl⟩ := fatGet_eq_ok.mp hget
      rw [bind_eq_ok] at h
      obtain ⟨img1, hset, h⟩ := h
      obtain ⟨-, rfl⟩ := fatSet_eq_ok.mp hset
      obtain ⟨E, hE, hsub⟩ := ih h
      have hclear := touches_setEntry hin 0
      refine ⟨c :: E, (hclear.mono (by simp) (List.Subset.refl _)).trans
        (hE.mono (subset_cons_self _ _) (List.Subset.refl _)), ?_⟩
      intro chain e hleads
      have hnodup := hleads.nodup
      cases hleads with
      | stop hstop => exact absurd hgo hstop
      | @step _ _ l _ hrest =>
        -- the entry that was cleared is not needed any more
        have hfresh := (nodup_cons.mp hnodup).1
        refine cons_subset_cons c (hsub l e (hrest.congr (fun d hd => ?_) fun d => by rw [hclear.goesOn]))
        exact img.fatEntry_setEntry_of_ne 0 fun heq => hfresh (heq ▸ hd)
    · cases h
      exact ⟨[], .refl _, fun _ _ _ => nil_subset _⟩

theorem freeChain_touches (h : img.freeChain start = .ok img') :
    ∃ E, Touches img img' E [] ∧ ∀ chain e, img.ChainOf start chain e → E ⊆ chain := by
  unfold freeChain at h
  split at h
  · cases h
    exact ⟨[], .refl _, fun _ _ _ => nil_subset _⟩
  · exact freeLoop_touches h

/-! ## Edits of a whole command -/

structure Edits (img img' : Image) (E D : List Nat) (t : Nat) : Prop where
  bpb : img'.bpb = img.bpb
  len : img'.data.len = img.data.len
  entry : ∀ c, img.InFat c → c ∉ E → img'.fatEntry c = img.fatEntry c
  bytes : ∀ i, img.bpb.rootOffset ≤ i → ¬ (t ≤ i ∧ i < t + 32) → (∀ c ∈ D, ¬ img.InCluster c i) →
    img'.data.bytes i = img.data.bytes i

namespace Edits

theorem inFat (h : Edits img img' E D t) : img'.InFat c ↔ img.InFat c := by
  unfold InFat wordAt
  rw [h.bpb, h.len]

theorem inCluster (h : Edits img img' E D t) : img'.InCluster c i ↔ img.InCluster c i := by
  unfold InCluster clusterAt
  rw [h.bpb]

theorem mono (h : Edits img img' E D t) (hE : E ⊆ E') (hD : D ⊆ D') : Edits img img' E' D' t where
  bpb := h.bpb
  len := h.len
  entry c hc hcE := h.entry c hc fun hc => hcE (hE hc)
  bytes i hroot ht hi := h.bytes i hroot ht fun c hc => hi c (hD hc)

theorem trans (h : Edits img img1 E D t) (h' : Edits img1 img' E D t) : Edits img img' E D t where
  bpb := h'.bpb.trans h.bpb
  len := h'.len.trans h.len
  entry c hc hE := (h'.entry c (h.inFat.mpr hc) hE).trans (h.entry c hc hE)
  bytes i hroot ht hi := by
    rw [h'.bytes i (by rwa [h.bpb]) ht fun c hc hin => hi c hc (h.inCluster.mp hin)]
    exact h.bytes i hroot ht hi

end Edits

theorem Touches.edits (h : Touches img img' E D) (hfats : img.bpb.fatCount ≠ 0) (t : Nat) :
    Edits img img' E D t where
  bpb := h.bpb
  len := h.len
  entry := h.entry
  bytes i hroot _ hi := h.bytes i (fun hfat => absurd (hfat.lt_rootOffset hfats) (not_lt.mpr hroot)) hi

theorem fatEntry_of_bytes (hbpb : img'.bpb = img.bpb) (hc : img.InFat c)
    (h : ∀ i, img.bpb.InFirstFat i → img'.data.bytes i = img.data.bytes i) : img'.fatEntry c = img.fatEntry c :=
  fatEntry_congr hbpb fun i hlo hhi => h i (hc.inFirstFat ⟨hlo, hhi⟩)

/-! ### One directory entry -/

structure Pokes (img img' : Image) (t : Nat) : Prop where
  bpb : img'.bpb = img.bpb
  len : img'.data.len = img.data.len
  bytes : ∀ i, ¬ (t ≤ i ∧ i < t + 32) → img'.data.bytes i = img.data.bytes i

theorem Pokes.trans (h : Pokes img img1 t) (h' : Pokes img1 img' t) : Pokes img img' t where
  bpb := h'.bpb.trans h.bpb
  len := h'.len.trans h.len
  bytes i hi := (h'.bytes i hi).trans (h.bytes i hi)

theorem pokes_poke (img : Image) {off : Nat} {l : List (BitVec 8)} (hlo : t ≤ off) (hhi : off + l.length ≤ t + 32) :
    Pokes img (img.poke off l) t where
  bpb := rfl
  len := rfl
  bytes i hi := by
    rcases Nat.lt_or_ge i off with h | h
    · exact Buffer.overlay_of_lt _ _ h
    · exact Buffer.overlay_of_ge _ (by omega)

theorem Pokes.edits (h : Pokes img img' t) (hfats : img.bpb.fatCount ≠ 0) (ht : img.bpb.rootOffset ≤ t) :
    Edits img img' [] [] t where
  bpb := h.bpb
  len := h.len
  entry c hc _ := fatEntry_of_bytes h.bpb hc fun i hfat => h.bytes i fun hi => by
    have := hfat.lt_rootOffset hfats
    omega
  bytes i _ ht _ := h.bytes i ht

theorem markDirentDeleted_pokes (h : img.markDirentDeleted t = .ok img') : Pokes img img' t := by
  rw [markDirentDeleted, bind_eq_ok] at h
  obtain ⟨_, -, h⟩ := h
  cases h
  exact pokes_poke img le_rfl (by simp)

variable {size : Nat} {name bytes : List (BitVec 8)}

theorem updateDirent_eq_ok (h : img.updateDirent t start size = .ok img') :
    t + 32 ≤ img.data.len ∧
      img' = ((img.poke (t + 26) (Buffer.leBytes 2 (BitVec.ofNat 16 start))).poke (t + 20) [0, 0]).poke (t + 28)
        (Buffer.leBytes 4 (BitVec.ofNat 32 size)) := by
  rw [updateDirent, bind_eq_ok] at h
  obtain ⟨_, hlen, h⟩ := h
  cases h
  exact ⟨require_eq_ok.mp hlen, rfl⟩

theorem updateDirent_pokes (h : img.updateDirent t start size = .ok img') : Pokes img img' t := by
  obtain ⟨-, rfl⟩ := updateDirent_eq_ok h
  exact ((pokes_poke img (by omega) (by simp)).trans (pokes_poke _ (by omega) (by simp))).trans
    (pokes_poke _ (by omega) (by simp))

theorem writeNewRootDirent_eq_ok (h : img.writeNewRootDirent t name start size = .ok img') : name.length = 11 ∧
      (((img.poke t name).poke (t + 11) [0x20]).poke (t + 12) (List.replicate 14 0)).updateDirent t start size =
        .ok img' := by
  rw [writeNewRootDirent, bind_eq_ok] at h
  obtain ⟨_, -, h⟩ := h
  rw [bind_eq_ok] at h
  obtain ⟨_, hname, h⟩ := h
  exact ⟨require_eq_ok.mp hname, h⟩

theorem writeNewRootDirent_pokes (h : img.writeNewRootDirent t name start size = .ok img') : Pokes img img' t := by
  obtain ⟨hname, h⟩ := writeNewRootDirent_eq_ok h
  exact (((pokes_poke img le_rfl (by omega)).trans (pokes_poke _ (by omega) (by simp))).trans
    (pokes_poke _ (by omega) (by simp))).trans (updateDirent_pokes h)

/-! ### The copies of the FAT -/

def CopyAgrees (img : Image) (k : Nat) : Prop :=
  ∀ i < img.bpb.fatSize,
    img.data.bytes (img.bpb.fatOffset + k * img.bpb.fatSize + i) = img.data.bytes (img.bpb.fatOffset + i)

theorem mirrorLoop_spec {left copy : Nat} (hcopy : 1 ≤ copy) (h : mirrorLoop left img copy = .ok img') :
    img'.bpb = img.bpb ∧ img'.data.len = img.data.len ∧ (∀ i, i < img.bpb.fatOffset + copy * img.bpb.fatSize ∨
        img.bpb.fatOffset + (copy + left) * img.bpb.fatSize ≤ i → img'.data.bytes i = img.data.bytes i) ∧
      ∀ k, copy ≤ k → k < copy + left → img'.CopyAgrees k := by
  induction left generalizing img copy with
  | zero =>
    cases h
    exact ⟨rfl, rfl, fun _ _ => rfl, fun k hlo hhi => by omega⟩
  | succ left ih =>
    rw [mirrorLoop, bind_eq_ok] at h
    obtain ⟨_, -, h⟩ := h
    obtain ⟨hbpb, hlen, hbytes, hcopies⟩ := ih (by omega) h
    have hmul : (copy + 1) * img.bpb.fatSize = copy * img.bpb.fatSize + img.bpb.fatSize := by
      rw [Nat.add_mul, Nat.one_mul]
    have hsum : copy + 1 + left = copy + (left + 1) := by omega
    have hmono : (copy + 1) * img.bpb.fatSize ≤ (copy + (left + 1)) * img.bpb.fatSize :=
      Nat.mul_le_mul_right _ (by omega)
    have hone : 1 * img.bpb.fatSize ≤ copy * img.bpb.fatSize := Nat.mul_le_mul_right _ hcopy
    dsimp only [poke] at hbpb hlen hbytes hcopies
    rw [hsum] at hbytes hcopies
    refine ⟨hbpb, hlen, fun i hi => ?_, fun k hlo hhi => ?_⟩
    · rw [hbytes i (by omega)]
      rcases hi with hi | hi
      · exact Buffer.overlay_of_lt _ _ hi
      · exact Buffer.overlay_of_ge _ (by rw [length_slice]; omega)
    rcases Nat.eq_or_lt_of_le hlo with rfl | hlt
    · intro i hi
      rw [hbpb] at hi ⊢
      rw [hbytes (img.bpb.fatOffset + copy * img.bpb.fatSize + i) (by omega),
        hbytes (img.bpb.fatOffset + i) (by omega), Buffer.stands_overlay _ _ _ i (by rwa [length_slice]),
        Buffer.overlay_of_lt _ _ (show img.bpb.fatOffset + i < _ by omega)]
      simp [slice]
    · exact hcopies k hlt hhi

theorem mirrorFats_spec (h : img.mirrorFats = .ok img') :
    (∀ t, Edits img img' [] [] t) ∧ ∀ k < img.bpb.fatCount, img'.CopyAgrees k := by
  obtain ⟨hbpb, hlen, hbytes, hcopies⟩ := mirrorLoop_spec le_rfl h
  rw [Nat.one_mul] at hbytes
  refine ⟨fun t => ⟨hbpb, hlen, fun c hc _ => ?_, fun i hroot _ _ => ?_⟩, fun k hk => ?_⟩
  · exact fatEntry_of_bytes hbpb hc fun i hfat => hbytes i (.inl hfat.2)
  · unfold Bpb.rootOffset at hroot
    apply hbytes
    rcases Nat.eq_zero_or_pos img.bpb.fatCount with h0 | hpos
    · rw [h0] at hroot ⊢
      omega
    · rw [show 1 + (img.bpb.fatCount - 1) = img.bpb.fatCount by omega]
      exact .inr hroot
  · rcases Nat.eq_zero_or_pos k with rfl | hpos
    · intro i hi
      rw [Nat.zero_mul, Nat.add_zero]
    · exact hcopies k hpos (by omega)

/-! ## The commands -/

/-- Some of the chain from `start` is freed, free clusters are taken, and the entry at `t` is written. -/
structure Effect (img img' : Image) (start t : Nat) (freed new : List Nat) : Prop where
  edits : Edits img img' (freed ++ new) new t
  freed_subset : ∀ chain e, img.ChainOf start chain e → freed ⊆ chain
  new_free : ∀ c ∈ new, 2 ≤ c ∧ (c ∈ freed ∨ img.fatEntry c = 0)
  copies : ∀ k < img.bpb.fatCount, img'.CopyAgrees k

variable (hfats : img.bpb.fatCount ≠ 0)
include hfats

theorem writeBytes_touches (hsized : img.Sized)
    (h : img.writeBytes bytes = .ok (start, img')) :
    ∃ new, Touches img img' new new ∧ ∀ c ∈ new, 2 ≤ c ∧ img.InFat c ∧ img.fatEntry c = 0 := by
  unfold writeBytes at h
  split at h
  · cases h
    exact ⟨[], .refl _, by simp⟩
  rename_i hne
  obtain ⟨hfirst, rest, hwritten⟩ := allocateAndWrite_spec hfats hsized hne h
  refine ⟨start :: rest, hwritten.touches, fun c hc => ⟨(hwritten.inData c hc).1, hwritten.inFat c hc, ?_⟩⟩
  rcases mem_cons.mp hc with rfl | hc
  · exact hfirst.free
  · exact hwritten.free c hc

theorem replaceAt_effect (hsized : img.Sized) (ht : img.bpb.rootOffset ≤ t)
    {e : DirEntry} (h : img.replaceAt t e bytes = .ok img') :
    ∃ freed new, Effect img img' e.startCluster t freed new := by
  rw [replaceAt, bind_eq_ok] at h
  obtain ⟨img1, hfree, h⟩ := h
  rw [bind_eq_ok] at h
  obtain ⟨⟨start, img2⟩, hwrite, h⟩ := h
  rw [bind_eq_ok] at h
  obtain ⟨img3, hupdate, hmirror⟩ := h
  obtain ⟨freed, htouch, hsub⟩ := freeChain_touches hfree
  obtain ⟨new, hnew, hfresh⟩ := writeBytes_touches (by rwa [htouch.bpb]) (htouch.sized hsized) hwrite
  have hbpb : img2.bpb = img.bpb := hnew.bpb.trans htouch.bpb
  have hpoke := updateDirent_pokes hupdate
  obtain ⟨hcopies, hagree⟩ := mirrorFats_spec hmirror
  refine ⟨freed, new, ⟨?_, hsub, fun c hc => ⟨(hfresh c hc).1, ?_⟩, by rwa [hpoke.bpb, hbpb] at hagree⟩⟩
  · have h1 := (htouch.edits hfats t).mono (subset_append_left freed new) (nil_subset new)
    have h2 := (hnew.edits (by rwa [htouch.bpb]) t).mono (subset_append_right freed new) (List.Subset.refl new)
    have h3 := (hpoke.edits (by rwa [hbpb]) (by rwa [hbpb])).mono (nil_subset (freed ++ new)) (nil_subset new)
    exact ((h1.trans h2).trans h3).trans ((hcopies t).mono (nil_subset _) (nil_subset _))
  · by_cases hcf : c ∈ freed
    · exact .inl hcf
    · obtain ⟨-, hin, hzero⟩ := hfresh c hc
      exact .inr ((htouch.entry c (htouch.inFat.mp hin) hcf).symm.trans hzero)

theorem createAt_effect (hsized : img.Sized) (ht : img.bpb.rootOffset ≤ t)
    {fatName : List (BitVec 8)} (h : img.createAt t fatName bytes = .ok img') :
    ∃ new, Effect img img' 0 t [] new := by
  rw [createAt, bind_eq_ok] at h
  obtain ⟨⟨start, img2⟩, hwrite, h⟩ := h
  rw [bind_eq_ok] at h
  obtain ⟨img3, hentry, hmirror⟩ := h
  obtain ⟨new, hnew, hfresh⟩ := writeBytes_touches hfats hsized hwrite
  have hpoke := writeNewRootDirent_pokes hentry
  obtain ⟨hcopies, hagree⟩ := mirrorFats_spec hmirror
  refine ⟨new, ⟨?_, fun _ _ _ => nil_subset _, fun c hc => ⟨(hfresh c hc).1, .inr (hfresh c hc).2.2⟩,
    by rwa [hpoke.bpb, hnew.bpb] at hagree⟩⟩
  have h1 := hnew.edits hfats t
  have h2 := (hpoke.edits (by rwa [hnew.bpb]) (by rwa [hnew.bpb])).mono (nil_subset new) (nil_subset new)
  exact (h1.trans h2).trans ((hcopies t).mono (nil_subset _) (nil_subset _))

theorem delete_effect (ht : img.bpb.rootOffset ≤ t) {img2 : Image}
    (hfree : img.freeChain start = .ok img1) (hmark : img1.markDirentDeleted t = .ok img2)
    (hmirror : img2.mirrorFats = .ok img') : ∃ freed, Effect img img' start t freed [] := by
  obtain ⟨freed, htouch, hsub⟩ := freeChain_touches hfree
  have hpoke := markDirentDeleted_pokes hmark
  obtain ⟨hcopies, hagree⟩ := mirrorFats_spec hmirror
  refine ⟨freed, ⟨?_, hsub, by simp, by rwa [hpoke.bpb, htouch.bpb] at hagree⟩⟩
  rw [append_nil]
  have h1 := htouch.edits hfats t
  have h2 := (hpoke.edits (by rwa [htouch.bpb]) (by rwa [htouch.bpb])).mono (nil_subset freed) (nil_subset [])
  exact (h1.trans h2).trans ((hcopies t).mono (nil_subset _) (nil_subset _))

end Image

end Kolibri.KolibriImg
