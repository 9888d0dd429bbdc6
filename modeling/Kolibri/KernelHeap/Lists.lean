import Kolibri.KernelHeap.Spec

/-! # The lists of the kernel's address space

A node that is in no list keeps its links, so the spare descriptors stay as they are.
-/

namespace Kolibri.KernelHeap

open LinkedLists Function BitVec Nat

variable {h : Space} {members : Node → List Node} {F U F' U' : Nat → Node → Prop} {x : Node} {i : Nat}

/-! ## The mask -/

variable {i j cl : Nat} {l : List Node} {n : Node} {w : BitVec 32}

theorem maskBit_bts (mask : Nat → BitVec 32) : MaskBit (bts mask i) j ↔ j = i ∨ MaskBit mask j := by
  unfold MaskBit bts
  have hj : j % 32 < 32 := mod_lt _ (by decide)
  rw [show j = i ↔ j / 32 = i / 32 ∧ j % 32 = i % 32 by omega]
  by_cases hw : j / 32 = i / 32
  · rw [hw, update_self]
    simp [hj]
    rw [Or.comm]
    exact or_congr_left (by omega)
  · simp [hw]

theorem maskBit_btr (mask : Nat → BitVec 32) : MaskBit (btr mask i) j ↔ j ≠ i ∧ MaskBit mask j := by
  unfold MaskBit btr
  have hj : j % 32 < 32 := mod_lt _ (by decide)
  rw [ne_eq, show j = i ↔ j / 32 = i / 32 ∧ j % 32 = i % 32 by omega]
  by_cases hw : j / 32 = i / 32
  · rw [hw, update_self]
    simp [hj]
    rw [And.comm]
    exact and_congr_left fun _ => by omega
  · simp [hw]

theorem clear_if_empty_eq (h : Space) (i : Nat) : clearIfEmpty h i = { h with
    memBlockMask := if h.next (.freeHead i) = .freeHead i then btr h.memBlockMask i else h.memBlockMask } := by
  unfold clearIfEmpty
  split_ifs <;> rfl

/-! ## Members -/

def Unlisted (F U : Nat → Node → Prop) (y : Node) : Prop := ¬ IsHead y ∧ ∀ j, j < 64 → ¬ F j y ∧ ¬ U j y

theorem Listed.not_linked (L : Listed h members F U) {y : Node} (hy : Unlisted F U y) :
    ¬ Linked IsHead members y := by
  rintro (hh | ⟨a, ha, hm⟩)
  · exact hy.1 hh
  · cases ha with
    | free hi => exact (hy.2 _ hi).1 ((L.free _ y hi).mp hm)
    | used hi => exact (hy.2 _ hi).2 ((L.used _ y hi).mp hm)

theorem Listed.congr {h' : Space} (L : Listed h members F U) (hF : ∀ j n, j < 64 → (F' j n ↔ F j n))
    (hU : ∀ j n, j < 64 → (U' j n ↔ U j n))
    (hlinks : ∀ y, ¬ Unlisted F U y → h'.next y = h.next y ∧ h'.prev y = h.prev y)
    (hmask : h'.memBlockMask = h.memBlockMask) : Listed h' members F' U' := by
  refine ⟨L.rings.congr fun y hy => hlinks y fun hun => L.not_linked hun hy, fun j n hj => ?_, fun j n hj => ?_, ?_⟩
  · rw [L.free j n hj, hF j n hj]
  · rw [L.used j n hj, hU j n hj]
  · rw [hmask]
    exact L.mask

theorem Listed.remove_free (L : Listed h members F U) (hi : i < 64) (hx : F i x) :
    (∃ members', Listed (clearIfEmpty (listDel h x) i) members' (fun j n => F j n ∧ n ≠ x) U) ∧
      ∀ y, Unlisted F U y → (clearIfEmpty (listDel h x) i).next y = h.next y := by
  have hmem := (L.free i x hi).mpr hx
  have hrings := L.rings.remove (.free hi) hmem
  rw [clear_if_empty_eq]
  refine ⟨⟨_, hrings, fun j n hj => ?_, fun j n hj => ?_, fun j hj => ?_⟩, fun y hy => ?_⟩
  · rw [L.rings.mem_update_erase (.free hi) (.free hj) hmem, L.free j n hj]
  · rw [update_of_ne (by simp), L.used j n hj]
  · have hempty := hrings.next_eq_self (.free hi)
    rw [update_self] at hempty
    have hold := L.mask j hj
    by_cases hji : j = i
    · subst hji
      rw [update_self]
      show MaskBit (if removeNext h.next h.prev x (.freeHead j) = .freeHead j then _ else _) j ↔ _
      by_cases hself : removeNext h.next h.prev x (.freeHead j) = .freeHead j
      · rw [if_pos hself, maskBit_btr]
        simp [hempty.mp hself]
      rw [if_neg hself]
      refine hold.trans ?_
      refine ⟨fun _ he => hself (hempty.mpr he), fun _ he => ?_⟩
      rw [he] at hmem
      cases hmem
    · rw [update_of_ne (by simpa using hji), ← hold]
      show MaskBit (if removeNext h.next h.prev x (.freeHead i) = .freeHead i then _ else _) j ↔ _
      by_cases hself : removeNext h.next h.prev x (.freeHead i) = .freeHead i
      · rw [if_pos hself, maskBit_btr]
        exact ⟨fun hb => hb.2, fun hb => ⟨hji, hb⟩⟩
      · rw [if_neg hself]
        rfl
  · exact (L.rings.remove_frame (.free hi) hmem (not_mem_of_not_linked (L.not_linked hy) (.free hi))).1

theorem Listed.remove_used (L : Listed h members F U) (hi : i < 64) (hx : U i x) :
    (∃ members', Listed (listDel h x) members' F (fun j n => U j n ∧ n ≠ x)) ∧
      ∀ y, Unlisted F U y → (listDel h x).next y = h.next y := by
  have hmem := (L.used i x hi).mpr hx
  refine ⟨⟨_, L.rings.remove (.used hi) hmem, fun j n hj => ?_, fun j n hj => ?_, fun j hj => ?_⟩, fun y hy => ?_⟩
  · rw [update_of_ne (by simp), L.free j n hj]
  · rw [L.rings.mem_update_erase (.used hi) (.used hj) hmem, L.used j n hj]
  · rw [update_of_ne (by simp)]
    exact L.mask j hj
  · exact (L.rings.remove_frame (.used hi) hmem (not_mem_of_not_linked (L.not_linked hy) (.used hi))).1

theorem Listed.add_free (L : Listed h members F U) (hi : i < 64) (hx : Unlisted F U x) :
    (∃ members', Listed (addBlock h x i) members' (fun j n => F j n ∨ (j = i ∧ n = x)) U) ∧
      ∀ y, Unlisted F U y → y ≠ x → (addBlock h x i).next y = h.next y := by
  refine ⟨⟨_, L.rings.add (.free hi) (L.not_linked hx), fun j n hj => ?_, fun j n hj => ?_, fun j hj => ?_⟩,
    fun y hy hyx => ?_⟩
  · rw [mem_update_cons, L.free j n hj, Node.freeHead.injEq]
  · rw [update_of_ne (by simp), L.used j n hj]
  · have hold := L.mask j hj
    show MaskBit (bts h.memBlockMask i) j ↔ _
    rw [maskBit_bts, hold]
    by_cases hji : j = i
    · subst hji
      simp [update_self]
    · rw [update_of_ne (by simpa using hji)]
      simp [hji]
  · exact (L.rings.add_frame (.free hi) hyx (not_mem_of_not_linked (L.not_linked hy) (.free hi))).1

theorem Listed.add_used (L : Listed h members F U) (hi : i < 64) (hx : Unlisted F U x) :
    (∃ members', Listed (listAdd h x (.usedHead i)) members' F (fun j n => U j n ∨ (j = i ∧ n = x))) ∧
      ∀ y, Unlisted F U y → y ≠ x → (listAdd h x (.usedHead i)).next y = h.next y := by
  refine ⟨⟨_, L.rings.add (.used hi) (L.not_linked hx), fun j n hj => ?_, fun j n hj => ?_, fun j hj => ?_⟩,
    fun y hy hyx => ?_⟩
  · rw [update_of_ne (by simp), L.free j n hj]
  · rw [mem_update_cons, L.used j n hj, Node.usedHead.injEq]
  · rw [update_of_ne (by simp)]
    exact L.mask j hj
  · exact (L.rings.add_frame (.used hi) hyx (not_mem_of_not_linked (L.not_linked hy) (.used hi))).1

/-! ## Searching -/

theorem shifted_bit (w : BitVec 32) (cl b : Nat) :
    ((0xFFFFFFFF#32 <<< cl) &&& w).getLsbD b = (decide (cl ≤ b) && w.getLsbD b) := by
  by_cases hb : b < 32
  · have hones : (0xFFFFFFFF#32).getLsbD (b - cl) = true := by
      rw [show (0xFFFFFFFF#32) = BitVec.allOnes 32 from rfl, getLsbD_allOnes]
      simp
      omega
    have hle : (!decide (b < cl)) = decide (cl ≤ b) := by rw [← decide_not]; simp
    rw [getLsbD_and, getLsbD_shiftLeft, hones, hle]
    simp [hb]
  · simp [getLsbD_of_ge _ _ (Nat.le_of_not_lt hb)]

theorem lowest_bit (hne : (0xFFFFFFFF#32 <<< cl) &&& w ≠ 0) :
    ∃ b, ((0xFFFFFFFF#32 <<< cl) &&& w).ctz.toNat = b ∧ b < 32 ∧ cl ≤ b ∧ w.getLsbD b = true ∧
      ∀ b', cl ≤ b' → b' < b → w.getLsbD b' = false := by
  have hset := getLsbD_true_ctz_of_ne_zero hne
  have hlt : ((0xFFFFFFFF#32 <<< cl) &&& w).ctz.toNat < 32 := by
    simpa [lt_def] using ctz_lt_iff_ne_zero.mpr hne
  rw [shifted_bit] at hset
  simp only [Bool.and_eq_true, decide_eq_true_eq] at hset
  refine ⟨_, rfl, hlt, hset.1, hset.2, fun b' hlo hhi => ?_⟩
  have hclear := getLsbD_false_of_lt_ctz hhi
  rw [shifted_bit] at hclear
  simpa [hlo] using hclear

theorem no_bit (hz : (0xFFFFFFFF#32 <<< cl) &&& w = 0) {b : Nat} (hb : cl ≤ b) : w.getLsbD b = false := by
  have hbit := shifted_bit w cl b
  rw [hz] at hbit
  simpa [hb] using hbit.symm

theorem find_list_spec (h : Space) {k : Nat} (hk : k < 64) :
    (findList h k = none ∧ ∀ j, k ≤ j → j < 64 → ¬ MaskBit h.memBlockMask j) ∨
    ∃ i, findList h k = some i ∧ k ≤ i ∧ i < 64 ∧ MaskBit h.memBlockMask i ∧
      ∀ j, k ≤ j → j < i → ¬ MaskBit h.memBlockMask j := by
  -- A word of the mask, searched from bit `cl` on.
  have hword : ∀ word cl, (0xFFFFFFFF#32 <<< cl) &&& h.memBlockMask word ≠ 0 →
      ∃ b, ((0xFFFFFFFF#32 <<< cl) &&& h.memBlockMask word).ctz.toNat = b ∧ b < 32 ∧ cl ≤ b ∧
        MaskBit h.memBlockMask (32 * word + b) ∧
        ∀ b', cl ≤ b' → b' < b → ¬ MaskBit h.memBlockMask (32 * word + b') := by
    intro word cl hne
    obtain ⟨b, hctz, hlt, hcl, hset, hmin⟩ := lowest_bit hne
    refine ⟨b, hctz, hlt, hcl, ?_, fun b' hlo hhi => ?_⟩
    · unfold MaskBit
      rw [show (32 * word + b) / 32 = word by omega, show (32 * word + b) % 32 = b by omega, hset]
    · unfold MaskBit
      rw [show (32 * word + b') / 32 = word by omega, show (32 * word + b') % 32 = b' by omega, hmin b' hlo hhi]
      simp
  have hnone : ∀ word cl, (0xFFFFFFFF#32 <<< cl) &&& h.memBlockMask word = 0 → ∀ j, 32 * word + cl ≤ j →
      j < 32 * word + 32 → ¬ MaskBit h.memBlockMask j := by
    intro word cl hz j hlo hhi
    unfold MaskBit
    rw [show j / 32 = word by omega, no_bit hz (by omega)]
    simp
  unfold findList
  by_cases hlow : k < 32
  · simp only [if_pos hlow, mod_eq_of_lt hlow]
    by_cases hz : (0xFFFFFFFF#32 <<< k) &&& h.memBlockMask 0 = 0
    · have hfirst := hnone 0 k hz
      have hall : (0xFFFFFFFF#32 <<< 0) &&& h.memBlockMask 1 = h.memBlockMask 1 := by
        rw [show (0xFFFFFFFF#32 <<< 0) = BitVec.allOnes 32 from rfl, allOnes_and]
      simp only [hz, ne_eq, not_true_eq_false, if_false, show (0 : Nat) ≠ 32 by decide]
      by_cases hz' : h.memBlockMask 1 = 0
      · refine .inl ⟨by simp [hz'], fun j hlo hhi => ?_⟩
        rcases lt_or_ge j 32 with hj | hj
        · exact hfirst j (by omega) (by omega)
        · exact hnone 1 0 (hall.trans hz') j (by omega) (by omega)
      obtain ⟨b, hctz, hlt, -, hset, hmin⟩ := hword 1 0 (by rw [hall]; exact hz')
      rw [hall] at hctz
      refine .inr ⟨32 + b, by rw [if_pos hz', hctz], by omega, by omega, hset, fun j hlo hhi => ?_⟩
      rcases lt_or_ge j 32 with hj | hj
      · exact hfirst j (by omega) (by omega)
      · obtain ⟨b', rfl⟩ : ∃ b', j = 32 * 1 + b' := ⟨j - 32, by omega⟩
        exact hmin b' (by omega) (by omega)
    · obtain ⟨b, hctz, hlt, hcl, hset, hmin⟩ := hword 0 k hz
      refine .inr ⟨b, by rw [if_pos hz, hctz, zero_add], hcl, by omega, by simpa using hset, fun j hlo hhi => ?_⟩
      simpa using hmin j hlo hhi
  · simp only [if_neg hlow, mod_eq_of_lt (by omega : k - 32 < 32), show 32 / 32 = 1 by decide]
    by_cases hz : (0xFFFFFFFF#32 <<< (k - 32)) &&& h.memBlockMask 1 = 0
    · refine .inl ⟨by simp [hz], fun j hlo hhi => hnone 1 (k - 32) hz j (by omega) (by omega)⟩
    · obtain ⟨b, hctz, hlt, hcl, hset, hmin⟩ := hword 1 (k - 32) hz
      refine .inr ⟨32 + b, by rw [if_pos hz, hctz], by omega, by omega, hset, fun j hlo hhi => ?_⟩
      obtain ⟨b', rfl⟩ : ∃ b', j = 32 * 1 + b' := ⟨j - 32, by omega⟩
      exact hmin b' (by omega) (by omega)

theorem length_lt_scanFuel (hnodup : l.Nodup) (hblock : ∀ n ∈ l, ∃ d, d < 4096 ∧ n = .block d) :
    l.length < scanFuel := by
  have hsub : l ⊆ (List.range 4096).map Node.block := by
    intro n hn
    obtain ⟨d, hd, rfl⟩ := hblock n hn
    exact List.mem_map_of_mem (List.mem_range.mpr hd)
  have hle := (List.subperm_of_subset hnodup hsub).length_le
  rw [List.length_map, List.length_range] at hle
  unfold scanFuel
  omega

theorem scan_head (L : Listed h members F U) {a : Node} (ha : IsHead a) (p : Node → Bool)
    (hlen : (members a).length < scanFuel) : scan h.next a p scanFuel a = some ((members a).find? p) :=
  scan_spec (L.rings.path a ha) (L.rings.head_notMem ha ha) p hlen

end Kolibri.KernelHeap
