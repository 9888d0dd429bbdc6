import Kolibri.UserHeap.Spec

/-! # What the freeing functions do -/

namespace Kolibri.UserHeap

open Tiling Bitmap Function Nat

variable {P : Kind → Nat → Prop} {h : Heap} {l : List (Kind × Nat)}

/-! ## `user_normalize` -/

section

variable {tabs tabs' : Nat → Nat} {a b c : Nat} {l' seg : List (Kind × Nat)}

def OutsideFree (a : Nat) (l : List (Kind × Nat)) (i : Nat) : Prop :=
  ∀ x n, Occurs a l x .free n → i < x ∨ x + n ≤ i

structure SameLive (P : Kind → Nat → Prop) (tabs tabs' : Nat → Nat) (a : Nat) (l l' : List (Kind × Nat))
    (b : Nat) : Prop where
  row : Row P tabs' a l' b
  live : ∀ z k n, Live a l' z k n ↔ Live a l z k n
  kept : ∀ i, OutsideFree a l i → tabs' i = tabs i

theorem SameLive.refl (h : Row P tabs a l b) : SameLive P tabs tabs a l l b :=
  ⟨h, fun _ _ _ => Iff.rfl, fun _ _ => rfl⟩

theorem SameLive.behind (hseg : Row P tabs a seg c) (hl : Row P tabs c l b)
    (h : SameLive P tabs tabs' c l l' b) : SameLive P tabs tabs' a (seg ++ l) (seg ++ l') b := by
  have hseg' : Row P tabs' a seg c := by
    refine row_congr hseg fun i _ hi => h.kept i fun x n hx => ?_
    have hlo := (tiles_occurs hl hx).2.2.1
    omega
  refine ⟨tiles_append.mpr ⟨c, hseg', h.row⟩, fun z k n => ?_, fun i hi => h.kept i fun x n hx => ?_⟩
  · have hlive := h.live z k n
    unfold Live at hlive ⊢
    rw [occurs_append hseg', occurs_append hseg]
    tauto
  · exact hi x n ((occurs_append hseg).mpr (.inr hx))

variable {n1 n2 : Nat}

theorem SameLive.merge (hzero : P .free 0) (h : Row P tabs a ((.free, n1) :: (.free, n2) :: l) b) :
    SameLive P tabs (update (update tabs (a + n1) 0) a (hdr .free (n1 + n2))) a
      ((.free, n1) :: (.free, n2) :: l) ((.free, n1 + n2) :: l) b := by
  obtain ⟨hpos1, hblock1, hpos2, hblock2, hl⟩ := h
  rw [add_assoc] at hl
  refine ⟨⟨by omega, ⟨update_self .., fun i hlo hhi => ?_⟩, row_congr hl fun i hlo hhi => ?_⟩,
    fun z k n => ?_, fun i hi => ?_⟩
  · rw [update_of_ne (by omega)]
    by_cases hi : i = a + n1
    · rw [hi, update_self]
      exact hzero
    · rw [update_of_ne hi]
      rcases lt_or_ge i (a + n1) with hlt | hge
      · exact hblock1.2 i hlo hlt
      · exact hblock2.2 i (by omega) (by omega)
  · rw [update_of_ne (by omega), update_of_ne (by omega)]
  · simp [add_assoc]
  · have hi1 := hi a n1 (.inl ⟨rfl, rfl, rfl⟩)
    have hi2 := hi (a + n1) n2 (.inr (.inl ⟨rfl, rfl, rfl⟩))
    rw [update_of_ne (by omega), update_of_ne (by omega)]

theorem SameLive.trans {tabs'' : Nat → Nat} {l'' : List (Kind × Nat)} (h : SameLive P tabs tabs' a l l' b)
    (h' : SameLive P tabs' tabs'' a l' l'' b) (hsub : ∀ i, OutsideFree a l i → OutsideFree a l' i) :
    SameLive P tabs tabs'' a l l'' b := by
  refine ⟨h'.row, fun z k n => (h'.live z k n).trans (h.live z k n), fun i hi => ?_⟩
  rw [h'.kept i (hsub i hi), h.kept i hi]

theorem outsideFree_merge {i : Nat} (h : OutsideFree a ((.free, n1) :: (.free, n2) :: l) i) :
    OutsideFree a ((.free, n1 + n2) :: l) i := by
  intro x n hx
  have h1 := h a n1 (.inl ⟨rfl, rfl, rfl⟩)
  have h2 := h (a + n1) n2 (.inr (.inl ⟨rfl, rfl, rfl⟩))
  rcases hx with ⟨rfl, -, rfl⟩ | hx
  · omega
  · exact h x n (.inr (.inr (by rwa [add_assoc])))

/-- What stops the walk behind a used block is the entry of the page at 2 GiB. -/
theorem user_normalize_loop_spec (hzero : P .free 0) (fuel : Nat) (h : Row P tabs a l topPage)
    (hguard : tabs topPage &&& memBlockUsed = 0) (hfuel : l.length < fuel) :
    ∃ tabs' l', userNormalizeLoop topPage fuel tabs a = some tabs' ∧ SameLive P tabs tabs' a l l' topPage := by
  induction fuel generalizing tabs a l with
  | zero => omega
  | succ fuel ih =>
    unfold userNormalizeLoop
    rcases l with _ | ⟨⟨k, n⟩, l⟩
    · obtain rfl : a = topPage := h
      refine ⟨tabs, [], ?_, SameLive.refl rfl⟩
      simp only [hguard, ne_eq, not_true_eq_false, if_false]
      by_cases hfree : tabs topPage &&& memBlockFree = 0
      · rw [if_pos hfree]
      · rw [if_neg hfree, if_pos (le_add_right _ _)]
    rw [List.length_cons] at hfuel
    have hhead := h.2.1.1
    have hseg : Row P tabs a [(k, n)] (a + n) := ⟨h.1, h.2.1, rfl⟩
    by_cases hk : k = .free
    swap
    · -- A used block is passed.
      obtain ⟨tabs', l', hloop, hsame⟩ := ih h.2.2 hguard (by omega)
      simp only [hhead, ne_eq, hdr_and_used, hk, not_false_eq_true, if_true, hdr_div]
      exact ⟨tabs', (k, n) :: l', hloop, SameLive.behind hseg h.2.2 hsame⟩
    subst hk
    simp only [hhead, ne_eq, hdr_and_used, hdr_and_free, not_true_eq_false, if_false, hdr_div]
    rcases l with _ | ⟨⟨k2, n2⟩, l⟩
    · -- The last block.
      have hlast : a + n = topPage := h.2.2
      rw [if_pos (le_of_eq hlast.symm)]
      exact ⟨tabs, [(.free, n)], rfl, SameLive.refl h⟩
    rw [List.length_cons] at hfuel
    have hend2 := row_head_lt h.2.2
    have hhead2 := h.2.2.2.1.1
    rw [if_neg (by unfold topPage; omega)]
    simp only [hhead2, hdr_and_used, hdr_and_free, hdr_div]
    by_cases hk2 : k2 = .free
    swap
    · have hseg2 : Row P tabs a [(.free, n), (k2, n2)] (a + n + n2) := ⟨h.1, h.2.1, h.2.2.1, h.2.2.2.1, rfl⟩
      obtain ⟨tabs', l', hloop, hsame⟩ := ih h.2.2.2.2 hguard (by omega)
      rw [if_pos hk2]
      exact ⟨tabs', (.free, n) :: (k2, n2) :: l', hloop, SameLive.behind hseg2 h.2.2.2.2 hsame⟩
    · -- The walk stays where it is, at the larger block.
      subst hk2
      have hsum : pageAlign ((hdr .free n + hdr .free n2) % 2 ^ 32) ||| memBlockFree = hdr .free (n + n2) := by
        rw [← or_free (n + n2), show hdr .free n = 4096 * n + 4 from rfl, show hdr .free n2 = 4096 * n2 + 4 from rfl]
        congr 1
        unfold pageAlign
        omega
      have hmerge := SameLive.merge hzero h
      have htop : topPage ≠ a ∧ topPage ≠ a + n := by unfold topPage; omega
      obtain ⟨tabs', l', hloop, hsame⟩ := ih hmerge.row
        (by rw [update_of_ne htop.1, update_of_ne htop.2]; exact hguard)
        (by rw [List.length_cons]; omega)
      rw [if_neg (by simp), if_neg (by simp), hsum]
      exact ⟨tabs', l', hloop, hmerge.trans hsame fun i => outsideFree_merge⟩

end

theorem changed_normalize (ht : Tiled P h l) (hzero : P .free 0)
    (hguard : h.tabs topPage &&& memBlockUsed = 0) :
    ∃ h' l', userNormalize h = some h' ∧ Changed P h l (fun _ => False) (fun _ _ => False) h' l' ∧
      h'.memUsed = h.memUsed ∧ h'.bitmap = h.bitmap := by
  obtain ⟨tabs', l', hloop, hsame⟩ := user_normalize_loop_spec hzero walkFuel ht.row hguard
    (row_length_lt ht.row)
  unfold userNormalize
  rw [ht.top, show heapTopAddr / 4096 = topPage from rfl, hloop]
  refine ⟨_, l', rfl, ⟨⟨rfl, ht.aligned, hsame.row⟩, rfl, fun z k n => ?_, fun z k n hz _ i hlo hhi => ?_,
    fun i hi => hsame.kept i fun x n hx => ?_⟩, rfl, rfl⟩
  · rw [hsame.live]
    tauto
  · -- A live block is apart from every free one.
    refine hsame.kept i fun x n' hx => ?_
    rcases occurs_apart ht.row hz.1 hx with hle | hge | ⟨-, hk, -⟩
    · omega
    · omega
    · exact absurd hk hz.2
  · have hocc := ht.occurs hx
    unfold topPage at hi
    omega

/-! ## Giving pages back -/

def pageOf (entry : Nat) : Nat := entry % 2 ^ 32 / 4096

variable (sel : Nat → Prop) (tabs : Nat → Nat)

def Selected (start n q : Nat) : Prop :=
  ∃ i, start ≤ i ∧ i < start + n ∧ sel (tabs i) ∧ pageOf (tabs i) = q

def clear (start n : Nat) : Nat → Nat := fun i =>
  if start ≤ i ∧ i < start + n then 0 else tabs i

theorem selected_first (start n q : Nat) :
    Selected sel tabs start (n + 1) q ↔
      (sel (tabs start) ∧ pageOf (tabs start) = q) ∨ Selected sel tabs (start + 1) n q := by
  constructor
  · rintro ⟨i, hlo, hhi, hi⟩
    by_cases hs : i = start
    · subst hs
      exact .inl hi
    · exact .inr ⟨i, by omega, by omega, hi⟩
  · rintro (hs | ⟨i, hlo, hhi, hi⟩)
    · exact ⟨start, le_refl _, by omega, hs⟩
    · exact ⟨i, by omega, by omega, hi⟩

theorem selected_last (start n q : Nat) :
    Selected sel tabs start (n + 1) q ↔
      (sel (tabs (start + n)) ∧ pageOf (tabs (start + n)) = q) ∨ Selected sel tabs start n q := by
  constructor
  · rintro ⟨i, hlo, hhi, hi⟩
    by_cases hs : i = start + n
    · subst hs
      exact .inl hi
    · exact .inr ⟨i, by omega, by omega, hi⟩
  · rintro (hs | ⟨i, hlo, hhi, hi⟩)
    · exact ⟨start + n, by omega, by omega, hs⟩
    · exact ⟨i, by omega, by omega, hi⟩

variable {n start c : Nat} {k : Kind}

theorem selected_congr {sel : Nat → Prop} {tabs tabs' : Nat → Nat}
    (heq : ∀ i, start ≤ i → i < start + n → tabs' i = tabs i) (q : Nat) :
    Selected sel tabs' start n q ↔ Selected sel tabs start n q := by
  constructor
  · rintro ⟨i, hlo, hhi, hi⟩
    exact ⟨i, hlo, hhi, by rwa [← heq i hlo hhi]⟩
  · rintro ⟨i, hlo, hhi, hi⟩
    exact ⟨i, hlo, hhi, by rwa [heq i hlo hhi]⟩

theorem not_selected_zero (start q : Nat) : ¬ Selected sel tabs start 0 q := by
  rintro ⟨i, hlo, hhi, -⟩
  omega

theorem free_entry_gave [DecidablePred sel] (b : PhysBitmap) (e : Nat) :
    Gave b (fun q => sel e ∧ pageOf e = q) (if sel e then freePage b (BitVec.ofNat 32 e) else b) := by
  by_cases he : sel e
  · rw [if_pos he]
    refine (free_page_gave b _).congr fun q => ?_
    rw [BitVec.toNat_ofNat]
    exact ⟨fun hq => hq.2.symm, fun hq => ⟨he, hq.symm⟩⟩
  · rw [if_neg he]
    exact (Gave.refl b).congr fun q => by tauto

theorem release_entry_gave (b : PhysBitmap) (e : Nat) :
    Gave b (fun q => Present e ∧ pageOf e = q)
      (if Present e then (releaseBitmapPageModeB b (BitVec.ofNat 32 e >>> 12)).1 else b) := by
  by_cases he : Present e
  · rw [if_pos he]
    refine (release_page_gave b _).congr fun q => ?_
    rw [BitVec.toNat_ushiftRight, shiftRight_eq_div_pow, BitVec.toNat_ofNat]
    exact ⟨fun hq => hq.2.symm, fun hq => ⟨he, hq.symm⟩⟩
  · rw [if_neg he]
    exact (Gave.refl b).congr fun q => by tauto

theorem user_free_loop_spec (n : Nat) (h : Heap) (esi : Nat) :
    ∃ b, userFreeLoop n h esi = { h with tabs := clear h.tabs esi n, bitmap := b } ∧
      Gave h.bitmap (Selected Private h.tabs esi n) b := by
  induction n generalizing h esi with
  | zero =>
    have hnone : clear h.tabs esi 0 = h.tabs := funext fun i => if_neg (by omega)
    exact ⟨h.bitmap, by rw [hnone]; rfl,
      (Gave.refl _).congr fun q => iff_false_intro (not_selected_zero Private h.tabs esi q)⟩
  | succ n ih =>
    obtain ⟨b, hloop, hgave⟩ := ih { h with
      tabs := update h.tabs esi 0
      bitmap := if Private (h.tabs esi) then freePage h.bitmap (BitVec.ofNat 32 (h.tabs esi)) else h.bitmap } (esi + 1)
    refine ⟨b, ?_, (free_entry_gave Private h.bitmap (h.tabs esi)).trans hgave fun q => ?_⟩
    · have hstep : userFreeLoop (n + 1) h esi = userFreeLoop n _ (esi + 1) := rfl
      rw [hstep]
      refine Eq.trans ?_ (hloop.trans ?_)
      · split_ifs <;> rfl
      congr 1
      funext i
      simp only [clear, update_apply]
      split_ifs <;> first | rfl | omega
    · rw [selected_first]
      exact or_congr_right (selected_congr (fun i hlo _ => update_of_ne (by omega) _ _) q).symm

theorem user_realloc_release_spec (n : Nat) (h : Heap) (start : Nat) :
    ∃ b, userReallocRelease n h (start + n) = { h with tabs := clear h.tabs start n, bitmap := b } ∧
      Gave h.bitmap (Selected Present h.tabs start n) b := by
  induction n generalizing h with
  | zero =>
    have hnone : clear h.tabs start 0 = h.tabs := funext fun i => if_neg (by omega)
    exact ⟨h.bitmap, by rw [hnone]; rfl,
      (Gave.refl _).congr fun q => iff_false_intro (not_selected_zero Present h.tabs start q)⟩
  | succ n ih =>
    obtain ⟨b, hloop, hgave⟩ := ih { h with
      tabs := update h.tabs (start + n) 0
      bitmap := if Present (h.tabs (start + n)) then freePage h.bitmap (BitVec.ofNat 32 (h.tabs (start + n)))
        else h.bitmap }
    refine ⟨b, ?_, (free_entry_gave Present h.bitmap (h.tabs (start + n))).trans hgave fun q => ?_⟩
    · have hstep : userReallocRelease (n + 1) h (start + (n + 1)) =
          userReallocRelease n _ (start + (n + 1) - 1) := rfl
      rw [hstep, show start + (n + 1) - 1 = start + n by omega]
      refine Eq.trans ?_ (hloop.trans ?_)
      · split_ifs <;> rfl
      congr 1
      funext i
      simp only [clear, update_apply]
      split_ifs <;> first | rfl | omega
    · rw [selected_last]
      exact or_congr_right (selected_congr (fun i _ hhi => update_of_ne (by omega) _ _) q).symm

def Visited (start n i : Nat) : Prop := i < 2 ^ 30 ∧ (i + (2 ^ 30 - start)) % 2 ^ 30 < n
  deriving Decidable

theorem visited_succ (hstart : start < 2 ^ 30) (n i : Nat) :
    Visited start (n + 1) i ↔ i = start ∨ Visited ((start + 1) % 2 ^ 30) n i := by
  unfold Visited
  omega

theorem visited_iff (hfit : start + n ≤ 2 ^ 30) (i : Nat) : Visited start n i ↔ start ≤ i ∧ i < start + n := by
  unfold Visited
  omega

theorem user_unmap_loop_visited (n : Nat) (h : Heap) (hstart : start < 2 ^ 30) :
    ∃ tabs b, userUnmapLoop n h start = { h with tabs, bitmap := b } ∧
      (∀ i, tabs i = if Visited start n i ∧ Private (h.tabs i) then memBlockReserved else h.tabs i) ∧
      Gave h.bitmap (fun q => ∃ i, Visited start n i ∧ Private (h.tabs i) ∧ pageOf (h.tabs i) = q) b := by
  induction n generalizing h start with
  | zero =>
    have hnone : ∀ i, ¬ Visited start 0 i := fun i hi => by unfold Visited at hi; omega
    exact ⟨h.tabs, h.bitmap, rfl, fun i => by simp [hnone], (Gave.refl _).congr fun q => by simp [hnone]⟩
  | succ n ih =>
    have hstep := free_entry_gave Private h.bitmap (h.tabs start)
    unfold userUnmapLoop
    simp only
    by_cases hpriv : Private (h.tabs start)
    · rw [if_pos hpriv] at hstep
      rw [if_pos hpriv]
      obtain ⟨tabs, b, hloop, htabs, hgave⟩ := ih { h with
        tabs := update h.tabs start memBlockReserved
        bitmap := freePage h.bitmap (BitVec.ofNat 32 (h.tabs start)) } (mod_lt (start + 1) (by decide))
      -- A second visit finds the reserved entry.
      have hdone : ¬ Private memBlockReserved := by decide
      refine ⟨tabs, b, hloop, fun i => ?_, hstep.trans hgave fun q => ?_⟩
      · simp only [htabs, visited_succ hstart]
        rcases eq_or_ne i start with rfl | hi
        · simp [hdone, hpriv]
        · simp [update_of_ne hi, hi]
      simp only [visited_succ hstart]
      constructor
      · rintro ⟨i, rfl | hi, hp, hq⟩
        · exact .inl ⟨hp, hq⟩
        · rcases eq_or_ne i start with rfl | hne
          · exact .inl ⟨hp, hq⟩
          · exact .inr ⟨i, hi, by rwa [update_of_ne hne], by rwa [update_of_ne hne]⟩
      rintro (⟨hp, hq⟩ | ⟨i, hi, hp, hq⟩)
      · exact ⟨start, .inl rfl, hp, hq⟩
      · rcases eq_or_ne i start with rfl | hne
        · exact absurd (by rwa [update_self] at hp) hdone
        · rw [update_of_ne hne] at hp hq
          exact ⟨i, .inr hi, hp, hq⟩
    · rw [if_neg hpriv] at hstep
      rw [if_neg hpriv]
      obtain ⟨tabs, b, hloop, htabs, hgave⟩ := ih h (mod_lt (start + 1) (by decide))
      refine ⟨tabs, b, hloop, fun i => ?_, hstep.trans hgave fun q => ?_⟩
      · simp only [htabs, visited_succ hstart]
        rcases eq_or_ne i start with rfl | hi
        · simp [hpriv]
        · simp [hi]
      simp only [visited_succ hstart]
      constructor
      · rintro ⟨i, rfl | hi, hp, hq⟩
        · exact .inl ⟨hp, hq⟩
        · exact .inr ⟨i, hi, hp, hq⟩
      · rintro (⟨hp, hq⟩ | ⟨i, hi, hp, hq⟩)
        · exact ⟨start, .inl rfl, hp, hq⟩
        · exact ⟨i, .inr hi, hp, hq⟩

theorem user_unmap_loop_spec (n : Nat) (h : Heap) (hstart : start < 2 ^ 30) (hfit : start + n ≤ 2 ^ 30) :
    ∃ tabs b, userUnmapLoop n h start = { h with tabs, bitmap := b } ∧
      (∀ i, tabs i = if start ≤ i ∧ i < start + n ∧ Private (h.tabs i) then memBlockReserved else h.tabs i) ∧
      Gave h.bitmap (Selected Private h.tabs start n) b := by
  obtain ⟨tabs, b, hloop, htabs, hgave⟩ := user_unmap_loop_visited n h hstart
  refine ⟨tabs, b, hloop, fun i => ?_, hgave.congr fun q => ?_⟩
  · simp [htabs, visited_iff hfit, and_assoc]
  · simp [Selected, visited_iff hfit, and_assoc]

/-! ## `user_free` -/

theorem changed_free {h' : Heap} (ht : Tiled P h l) (hzero : P .free 0) (hc : Live (h.heapBase / 4096) l c k n)
    (htabs : h'.tabs = clear (update h.tabs c (hdr .free n)) (c + 1) (n - 1))
    (hsame : h'.heapBase = h.heapBase ∧ h'.heapTop = h.heapTop) :
    ∃ l', Changed P h l (fun z => z = c) (fun _ _ => False) h' l' := by
  obtain ⟨hx, hk⟩ := hc
  obtain ⟨l1, l2, rfl, h1, h2⟩ := tiles_cut ht.row hx
  obtain ⟨hpos, hblock, -, -⟩ := ht.occurs hx
  have hold : Row P h.tabs c [(k, n)] (c + n) := ⟨hpos, hblock, rfl⟩
  have hnew : Row P h'.tabs c [(.free, n)] (c + n) := by
    refine ⟨hpos, ⟨?_, fun i hlo hhi => ?_⟩, rfl⟩
    · rw [htabs, clear, if_neg (by omega), update_self]
    · rw [htabs, clear, if_pos (by omega)]
      exact hzero
  refine ⟨_, changed_of_edit ht h1 hold h2 hnew hsame (fun i hi => ?_) (fun z => ?_) fun z k' n' => ?_⟩
  · rw [htabs, clear, if_neg (by omega), update_of_ne (by omega)]
  · simp only [Live, Occurs, or_false]
    constructor
    · rintro rfl
      exact ⟨k, n, ⟨rfl, rfl, rfl⟩, hk⟩
    · rintro ⟨-, -, ⟨rfl, -, -⟩, -⟩
      rfl
  · simp

theorem changed_free_normalize {freed : Heap} (ht : Tiled P h l) (hzero : P .free 0)
    (hguard : h.tabs topPage &&& memBlockUsed = 0) (hc : Live (h.heapBase / 4096) l c k n)
    (htabs : freed.tabs = clear (update h.tabs c (hdr .free n)) (c + 1) (n - 1))
    (hsame : freed.heapBase = h.heapBase ∧ freed.heapTop = h.heapTop) :
    ∃ h' l', userNormalize freed = some h' ∧ Changed P h l (fun z => z = c) (fun _ _ => False) h' l' ∧
      h'.memUsed = freed.memUsed ∧ h'.bitmap = freed.bitmap := by
  obtain ⟨l1, hfree⟩ := changed_free ht hzero hc htabs hsame
  have hguard' : freed.tabs topPage &&& memBlockUsed = 0 := by
    rw [hfree.outside topPage (.inr (le_refl _))]
    exact hguard
  obtain ⟨h', l', hnorm, hchanged, hmem, hbitmap⟩ := changed_normalize hfree.tiled hzero hguard'
  exact ⟨h', l', hnorm, hfree.trans hchanged (by simp) (by simp), hmem, hbitmap⟩

theorem headerIndex_succ (hc : c < 0x80000) : headerIndex (c + 1) = c := by
  unfold headerIndex
  omega

theorem user_free_spec {base : BitVec 32} (ht : Tiled P h l) (hzero : P .free 0)
    (hquiet : ∀ k e, P k e → e &&& memBlockUsed = 0) (hguard : h.tabs topPage &&& memBlockUsed = 0)
    (hbase : base.toNat / 4096 = c + 1) (hlo : h.heapBase / 4096 ≤ c) (hhi : c < topPage) :
    (userFree h base = some (h, 1) ∧ ∀ n, ¬ Live (h.heapBase / 4096) l c .used n) ∨
    ∃ n h' l', Live (h.heapBase / 4096) l c .used n ∧ userFree h base = some (h', 1) ∧
      Changed P h l (fun z => z = c) (fun _ _ => False) h' l' ∧
      Gave h.bitmap (Selected Private h.tabs (c + 1) (n - 1)) h'.bitmap ∧
      h'.memUsed = h.memUsed - BitVec.ofNat 32 (4096 * (n - 1)) := by
  have hnonzero : base ≠ 0 := by
    rintro rfl
    simp at hbase
  unfold userFree
  rw [if_neg hnonzero]
  simp only [hbase, headerIndex_succ hhi]
  by_cases hused : h.tabs c &&& memBlockUsed = 0
  · refine .inl ⟨if_pos hused, fun n hlive => ?_⟩
    rw [(ht.occurs hlive.1).2.1.1] at hused
    exact absurd hused (by simp)
  rw [if_neg hused]
  obtain ⟨k, n, hlive⟩ := live_of_used_bit hquiet ht.row hlo hhi hused
  obtain ⟨hpos, hblock, -, hend⟩ := ht.occurs hlive.1
  have hhead := hblock.1
  by_cases hfixed : h.tabs c &&& memBlockDontFree ≠ 0
  · refine .inl ⟨if_pos hfixed, fun n hlive => hfixed ?_⟩
    rw [(ht.occurs hlive.1).2.1.1]
    simp
  rw [if_neg hfixed]
  have hk : k = .used := by
    rw [hhead, not_ne_iff, hdr_and_dontFree] at hfixed
    cases k with
    | free => exact absurd rfl hlive.2
    | used => rfl
    | fixed => exact absurd rfl hfixed
  subst hk
  right
  have hbytes : (4096 * n + 2 ^ 32 - 4096) % 2 ^ 32 = 4096 * (n - 1) := by omega
  rw [hhead, pageAlign_hdr, or_free, hbytes, Nat.mul_div_cancel_left (n - 1) (by decide)]
  obtain ⟨b, hloop, hgave⟩ := user_free_loop_spec (n - 1) { h with tabs := update h.tabs c (hdr .free n) } (c + 1)
  rw [hloop]
  let freed : Heap := { h with
    tabs := clear (update h.tabs c (hdr .free n)) (c + 1) (n - 1)
    memUsed := h.memUsed - BitVec.ofNat 32 (4096 * (n - 1))
    bitmap := b }
  obtain ⟨h', l', hnorm, hchanged, hmem, hbitmap⟩ : ∃ h' l', userNormalize freed = some h' ∧ _ :=
    changed_free_normalize ht hzero hguard hlive rfl ⟨rfl, rfl⟩
  refine ⟨n, h', l', hlive, ?_, hchanged, ?_, hmem⟩
  · show (userNormalize freed).map _ = _
    rw [hnorm]
    rfl
  · rw [hbitmap]
    exact hgave.congr fun q => (selected_congr (fun i hi _ => update_of_ne (by omega) _ _) q).symm

end Kolibri.UserHeap
