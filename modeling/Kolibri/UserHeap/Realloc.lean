import Kolibri.UserHeap.Alloc
import Kolibri.UserHeap.Free

/-! # What `user_realloc` does

The block gives pages to a free block behind it, takes some of it, or moves.
-/

namespace Kolibri.UserHeap

open Tiling Bitmap Function Nat

variable {P : Kind → Nat → Prop} {h : Heap} {l : List (Kind × Nat)}

section Walks

variable {tabs : Nat → Nat} {a : Nat}

theorem user_realloc_merge_spec (h : Row P tabs a l topPage) (hzero : P .free 0) (fuel : Nat)
    (hfuel : l.length < fuel) (ebx : Nat) (hebx : ebx + 4096 * (topPage - a) < 2 ^ 32) :
    ∃ tabs' y frees l2, userReallocMerge topPage fuel tabs a ebx = some (tabs', ebx + 4096 * (y - a)) ∧
      l = frees ++ l2 ∧ Row P tabs a frees y ∧ Row P tabs y l2 topPage ∧
      (∀ z k n, ¬ Live a frees z k n) ∧ (∀ i, a ≤ i → i < y → P .free (tabs' i)) ∧
      ∀ i, i < a ∨ y ≤ i → tabs' i = tabs i := by
  induction l generalizing tabs a ebx fuel with
  | nil =>
    obtain ⟨fuel, rfl⟩ : ∃ f, fuel = f + 1 := ⟨fuel - 1, by omega⟩
    obtain rfl : a = topPage := h
    refine ⟨tabs, topPage, [], [], ?_, rfl, rfl, rfl, fun z k n hz => hz.1, fun i _ _ => by omega, fun _ _ => rfl⟩
    unfold userReallocMerge
    rw [if_pos (Nat.le_refl _), Nat.sub_self]
    rfl
  | cons block l ih =>
    obtain ⟨k, n⟩ := block
    rw [List.length_cons] at hfuel
    obtain ⟨fuel, rfl⟩ : ∃ f, fuel = f + 1 := ⟨fuel - 1, by omega⟩
    obtain ⟨hend, hpos⟩ := row_head_lt h
    have hhead := h.2.1.1
    unfold userReallocMerge
    rw [if_neg (by unfold topPage; omega)]
    simp only [hhead, ne_eq, hdr_and_used, hdr_div, pageAlign_hdr]
    by_cases hk : k = .free
    swap
    · -- A used block ends the walk.
      refine ⟨tabs, a, [], (k, n) :: l, ?_, rfl, rfl, h, fun z k n hz => hz.1, fun i _ _ => by omega, fun _ _ => rfl⟩
      rw [if_pos hk, Nat.sub_self]
      rfl
    · subst hk
      have hnext : (ebx + 4096 * n) % 2 ^ 32 = ebx + 4096 * n := Nat.mod_eq_of_lt (by unfold topPage at hebx; omega)
      have hrest : Row P (update tabs a 0) (a + n) l topPage :=
        row_congr h.2.2 fun i hlo _ => update_of_ne (by omega) _ _
      obtain ⟨tabs', y, frees, l2, hloop, rfl, hfrees, hl2, hlive, hfree, hout⟩ :=
        ih hrest fuel (by omega) (ebx + 4096 * n) (by unfold topPage at hebx ⊢; omega)
      have hle := row_le hfrees
      refine ⟨tabs', y, (.free, n) :: frees, l2, ?_, rfl, ⟨hpos, h.2.1, ?_⟩, ?_, ?_, fun i hlo hhi => ?_,
        fun i hi => ?_⟩
      · rw [if_neg (by simp), hnext, hloop, show ebx + 4096 * n + 4096 * (y - (a + n)) = ebx + 4096 * (y - a) by omega]
      · exact row_congr hfrees fun i hlo _ => (update_of_ne (by omega) _ _).symm
      · exact row_congr hl2 fun i hlo _ => (update_of_ne (by omega) _ _).symm
      · exact fun z k' n' hz => hlive z k' n' ((live_free n z).mp hz)
      · rcases Nat.lt_or_ge i (a + n) with hlt | hge
        · rw [hout i (.inl hlt)]
          by_cases hi : i = a
          · rw [hi, update_self]
            exact hzero
          · rw [update_of_ne hi]
            exact h.2.1.2 i (by omega) hlt
        · exact hfree i hge hhi
      · rw [hout i (by omega), update_of_ne (by omega)]

theorem find_place_spec (h : Row P tabs a l topPage) (m fuel : Nat) (hfuel : l.length < fuel) :
    findPlace tabs topPage m fuel a = .exit ∨
    ∃ x n, Occurs a l x .free n ∧ m ≤ n ∧ findPlace tabs topPage m fuel a = .found x n := by
  induction l generalizing a fuel with
  | nil =>
    obtain ⟨fuel, rfl⟩ : ∃ f, fuel = f + 1 := ⟨fuel - 1, by omega⟩
    obtain rfl : a = topPage := h
    left
    exact if_pos (le_refl _)
  | cons block l ih =>
    obtain ⟨k, n⟩ := block
    rw [List.length_cons] at hfuel
    obtain ⟨fuel, rfl⟩ : ∃ f, fuel = f + 1 := ⟨fuel - 1, by omega⟩
    obtain ⟨hend, hpos⟩ := row_head_lt h
    have hhead := h.2.1.1
    unfold findPlace
    rw [if_neg (by unfold topPage; omega)]
    simp only [hhead, ne_eq, hdr_and_free, not_not, hdr_div]
    by_cases hfound : k = .free ∧ n ≥ m
    · rw [if_pos hfound]
      exact .inr ⟨a, n, .inl ⟨rfl, hfound.1.symm, rfl⟩, hfound.2, rfl⟩
    · rw [if_neg hfound]
      rcases ih h.2.2 fuel (by omega) with hexit | ⟨x, n', hx, hm, hfound⟩
      · exact .inl hexit
      · exact .inr ⟨x, n', .inr hx, hm, hfound⟩

theorem move_pages_spec (n : Nat) (tabs : Nat → Nat) (esi ecx : Nat) (hapart : esi + n ≤ ecx ∨ ecx + n ≤ esi) :
    ∀ i, movePages n tabs esi ecx i = if esi ≤ i ∧ i < esi + n then tabs (ecx + (i - esi))
      else if ecx ≤ i ∧ i < ecx + n then 0 else tabs i := by
  induction n generalizing tabs esi ecx with
  | zero =>
    intro i
    rw [if_neg (by omega), if_neg (by omega)]
    rfl
  | succ n ih =>
    intro i
    unfold movePages
    simp only [ih _ (esi + 1) (ecx + 1) (by omega), update_apply]
    split_ifs <;> first | rfl | omega | (congr 1; omega)

end Walks

def GrowsInPlace (h : Heap) (c p q : Nat) : Prop :=
  p + 1 + c < h.heapTop / 4096 ∧ h.tabs (p + 1 + c) &&& memBlockFree ≠ 0 ∧
    q + 1 + c ≤ h.tabs (p + 1 + c) / 4096 + (p + 1 + c)
  deriving Decidable

/-- The block of `p` pages at `c` becomes one of `q` pages at `x`. -/
structure Resized (P : Kind → Nat → Prop) (h : Heap) (l : List (Kind × Nat)) (c p x q : Nat) (h' : Heap)
    (l' : List (Kind × Nat)) : Prop where
  changed : Changed P h l (fun z => z = c) (fun z n => z = x ∧ n = q + 1) h' l'
  moved : ∀ i, i < p → i < q → h'.tabs (x + 1 + i) = h.tabs (c + 1 + i)
  reserved : ∀ i, p ≤ i → i < q → h'.tabs (x + 1 + i) = memBlockReserved
  memUsed : h'.memUsed = h.memUsed + BitVec.ofNat 32 (4096 * q) - BitVec.ofNat 32 (4096 * p)
  bitmap : Gave h.bitmap (Selected Present h.tabs (c + 1 + q) (p - q)) h'.bitmap
  stays : p < q ∧ ¬ GrowsInPlace h c p q ∨ x = c

def Reallocated (P : Kind → Nat → Prop) (h : Heap) (l : List (Kind × Nat)) (c p q : Nat)
    (r : Option (Heap × BitVec 32)) : Prop :=
  ∃ x h' l', r = some (h', BitVec.ofNat 32 (4096 * (x + 1))) ∧ Resized P h l c p x q h' l'

variable {p q c n y x : Nat} {frees l1 l2 : List (Kind × Nat)} {h' : Heap} {eax ebx : BitVec 32}

theorem memUsed_less (x : BitVec 32) (hqp : q ≤ p) :
    x - BitVec.ofNat 32 (4096 * (p - q)) = x + BitVec.ofNat 32 (4096 * q) - BitVec.ofNat 32 (4096 * p) := by
  obtain ⟨d, rfl⟩ : ∃ d, p = d + q := ⟨p - q, by omega⟩
  rw [Nat.add_sub_cancel, Nat.mul_add, BitVec.ofNat_add]
  bv_omega

theorem memUsed_more (x : BitVec 32) (hpq : p ≤ q) :
    x + BitVec.ofNat 32 (4096 * (q - p)) = x + BitVec.ofNat 32 (4096 * q) - BitVec.ofNat 32 (4096 * p) := by
  obtain ⟨d, rfl⟩ : ∃ d, q = d + p := ⟨q - p, by omega⟩
  rw [Nat.add_sub_cancel, Nat.mul_add, BitVec.ofNat_add]
  bv_omega

theorem changed_in_place {m : Nat} (ht : Tiled P h (l1 ++ (((.used, n) :: frees) ++ l2)))
    (h1 : Row P h.tabs (h.heapBase / 4096) l1 c) (hold : Row P h.tabs c ((.used, n) :: frees) y)
    (h2 : Row P h.tabs y l2 topPage) (hnolive : ∀ z k n', ¬ Live (c + n) frees z k n') (hm : 0 < m) (hy : c + m ≤ y)
    (hused : Block P h'.tabs c .used m) (hfree : c + m < y → Block P h'.tabs (c + m) .free (y - (c + m)))
    (hsame : h'.heapBase = h.heapBase ∧ h'.heapTop = h.heapTop) (heq : ∀ i, i < c ∨ y ≤ i → h'.tabs i = h.tabs i) :
    ∃ l', Changed P h (l1 ++ (((.used, n) :: frees) ++ l2)) (fun z => z = c) (fun z k => z = c ∧ k = m) h' l' := by
  have hnew : Row P h'.tabs c ((.used, m) :: if c + m < y then [(.free, y - (c + m))] else []) y := by
    refine ⟨hm, hused, ?_⟩
    split_ifs with hrest
    · exact ⟨by omega, hfree hrest, by show c + m + (y - (c + m)) = y; omega⟩
    · exact (by omega : c + m = y)
  refine ⟨_, changed_of_edit ht h1 hold h2 hnew hsame heq (fun z => ?_) fun z k n' => ?_⟩
  · simp [hnolive]
  · split_ifs <;> simp <;> tauto

theorem resized_in_place (ht : Tiled P h (l1 ++ (((.used, p + 1) :: frees) ++ l2)))
    (h1 : Row P h.tabs (h.heapBase / 4096) l1 c) (hold : Row P h.tabs c ((.used, p + 1) :: frees) y)
    (h2 : Row P h.tabs y l2 topPage) (hnolive : ∀ z k n', ¬ Live (c + (p + 1)) frees z k n') (hy : c + (q + 1) ≤ y)
    (hhead : h'.tabs c = hdr .used (q + 1)) (hmoved : ∀ i, i < p → i < q → h'.tabs (c + 1 + i) = h.tabs (c + 1 + i))
    (hreserved : ∀ i, p ≤ i → i < q → h'.tabs (c + 1 + i) = memBlockReserved)
    (hres : p < q → P .used memBlockReserved)
    (hfree : c + (q + 1) < y → Block P h'.tabs (c + (q + 1)) .free (y - (c + (q + 1))))
    (hsame : h'.heapBase = h.heapBase ∧ h'.heapTop = h.heapTop) (heq : ∀ i, i < c ∨ y ≤ i → h'.tabs i = h.tabs i)
    (hmem : h'.memUsed = h.memUsed + BitVec.ofNat 32 (4096 * q) - BitVec.ofNat 32 (4096 * p))
    (hbitmap : Gave h.bitmap (Selected Present h.tabs (c + 1 + q) (p - q)) h'.bitmap) :
    ∃ l', Resized P h (l1 ++ (((.used, p + 1) :: frees) ++ l2)) c p c q h' l' := by
  have hused : Block P h'.tabs c .used (q + 1) := by
    refine ⟨hhead, fun i hlo hhi => ?_⟩
    obtain ⟨d, rfl⟩ : ∃ d, i = c + 1 + d := ⟨i - (c + 1), by omega⟩
    rcases lt_or_ge d p with hd | hd
    · rw [hmoved d hd (by omega)]
      exact hold.2.1.2 _ (by omega) (by omega)
    · rw [hreserved d hd (by omega)]
      exact hres (by omega)
  obtain ⟨l', hchanged⟩ := changed_in_place ht h1 hold h2 hnolive (by omega) hy hused hfree hsame heq
  exact ⟨l', hchanged, hmoved, hreserved, hmem, hbitmap, .inr rfl⟩

/-! ## Shrinking -/

theorem user_realloc_same_spec (ht : Tiled P h l) (hc : Live (h.heapBase / 4096) l c .used (p + 1))
    (htabs : h'.tabs = h.tabs) (hsame : h'.heapBase = h.heapBase ∧ h'.heapTop = h.heapTop)
    (hmem : h'.memUsed = h.memUsed + BitVec.ofNat 32 (4096 * p) - BitVec.ofNat 32 (4096 * p))
    (hbitmap : Gave h.bitmap (Selected Present h.tabs (c + 1 + p) (p - p)) h'.bitmap) :
    Resized P h l c p c p h' l := by
  obtain ⟨-, hblock, -, -⟩ := ht.occurs hc.1
  exact ⟨changed_inside ht hc (by rw [htabs]; exact hblock.2) (fun i _ => by rw [htabs]) hsame,
    fun i _ _ => by rw [htabs], fun i _ _ => by omega, hmem, hbitmap, .inr rfl⟩

theorem user_realloc_shrink_spec (ht : Tiled P h l) (hzero : P .free 0)
    (hc : Live (h.heapBase / 4096) l c .used (p + 1)) (hq : 0 < q) (hqp : q ≤ p) :
    Reallocated P h l c p q (userReallocShrink h c (p + 1 + c) (q + 1 + c)) := by
  obtain ⟨hpos, hblock, -, hend⟩ := ht.occurs hc.1
  obtain ⟨b, hloop, hgave⟩ := user_realloc_release_spec (p - q) h (c + 1 + q)
  unfold userReallocShrink
  rw [show p + 1 + c = c + 1 + q + (p - q) by omega, show c + 1 + q + (p - q) - (q + 1 + c) = p - q by omega,
    hloop, show q + 1 + c - c = q + 1 by omega]
  have hold : clear h.tabs (c + 1 + q) (p - q) c = hdr .used (p + 1) := by
    rw [clear, if_neg (by omega), hblock.1]
  have hfreed : (p + 1 + 2 ^ 32 - (q + 1)) % 2 ^ 32 = p - q := by omega
  have hused : 4096 * (q + 1) % 2 ^ 32 ||| memBlockUsed = hdr .used (q + 1) := by
    rw [mod_eq_of_lt (by omega), or_used]
  simp only [if_neg (by omega : q + 1 ≠ 1), hold, hdr_div, hfreed, mul_comm _ 4096, hused]
  have htabs2 : ∀ i, update (clear h.tabs (c + 1 + q) (p - q)) c (hdr .used (q + 1)) i =
      if i = c then hdr .used (q + 1) else if c + 1 + q ≤ i ∧ i < c + 1 + p then 0 else h.tabs i := by
    intro i
    simp [update_apply, clear, show c + 1 + q + (p - q) = c + 1 + p by omega]
  generalize update (clear h.tabs (c + 1 + q) (p - q)) c (hdr .used (q + 1)) = tabs2 at htabs2 ⊢
  by_cases heq : 4096 * (p - q) % 2 ^ 32 = 0
  · obtain rfl : p = q := by omega
    rw [if_pos heq]
    refine ⟨c, _, l, rfl, user_realloc_same_spec ht hc (funext fun i => ?_) ⟨rfl, rfl⟩ (memUsed_less _ hqp) hgave⟩
    refine (htabs2 i).trans ?_
    split_ifs with hi hi'
    · rw [hi, hblock.1]
    · omega
    · rfl
  rw [if_neg heq]
  obtain ⟨l1, l2, rfl, h1, h2⟩ := tiles_cut ht.row hc.1
  have hcut : ∀ i, i < c ∨ c + 1 + p ≤ i → tabs2 i = h.tabs i := by
    intro i hi
    rw [htabs2, if_neg (by omega), if_neg (by omega)]
  -- The free blocks behind the block, as the walk finds them.
  have hrow2 : Row P tabs2 (c + (p + 1)) l2 topPage := row_congr h2 fun i hlo _ => hcut i (by omega)
  obtain ⟨tabs', y, frees, l3, hmerge, rfl, hfrees, h3, hnolive, hfree, hout⟩ :=
    user_realloc_merge_spec hrow2 hzero walkFuel (row_length_lt hrow2) (4096 * (p - q)) (by unfold topPage; omega)
  have hylo := row_le hfrees
  have hrest : 4096 * (p - q) + 4096 * (y - (c + (p + 1))) ||| memBlockFree = hdr .free (y - (c + (q + 1))) := by
    rw [← or_free, ← mul_add]
    congr 2
    omega
  rw [ht.top_page, show c + (q + 1) + (p - q) = c + (p + 1) by omega, mod_eq_of_lt (by omega), hmerge]
  simp only [Option.map_some, hrest]
  let h' : Heap := { h with
    tabs := update tabs' (c + (q + 1)) (hdr .free (y - (c + (q + 1))))
    memUsed := h.memUsed - BitVec.ofNat 32 (4096 * (p - q))
    bitmap := b }
  have htabs' : h'.tabs = update tabs' (c + (q + 1)) (hdr .free (y - (c + (q + 1)))) := rfl
  have hbelow : ∀ i, i < c + (q + 1) → h'.tabs i = tabs2 i := by
    intro i hi
    rw [htabs', update_of_ne (by omega), hout i (by omega)]
  obtain ⟨l', hresized⟩ : ∃ l', Resized P h _ c p c q h' l' := by
    refine resized_in_place ht h1 ⟨hpos, hblock, row_congr hfrees fun i hlo _ => (hcut i (by omega)).symm⟩
      (row_congr h3 fun i hlo _ => (hcut i (by omega)).symm) hnolive (by omega) ?_ (fun i hi hi' => ?_)
      (fun i _ _ => by omega) (fun _ => by omega) (fun _ => ⟨by rw [htabs', update_self], fun i hlo hhi => ?_⟩) ⟨rfl, rfl⟩
      (fun i hi => ?_) (memUsed_less _ hqp) hgave
    · rw [hbelow c (by omega), htabs2, if_pos rfl]
    · rw [hbelow _ (by omega), htabs2, if_neg (by omega), if_neg (by omega)]
    · rw [htabs', update_of_ne (by omega)]
      rcases lt_or_ge i (c + (p + 1)) with hlt | hge
      · rw [hout i (.inl hlt), htabs2, if_neg (by omega), if_pos (by omega)]
        exact hzero
      · exact hfree i hge (by omega)
    · rw [htabs', update_of_ne (by omega), hout i (by omega), hcut i (by omega)]
  exact ⟨c, h', l', rfl, hresized⟩

theorem user_realloc_to_zero_spec (ht : Tiled P h l) (hzero : P .free 0)
    (hguard : h.tabs topPage &&& memBlockUsed = 0) (hc : Live (h.heapBase / 4096) l c .used (p + 1)) :
    ∃ h' l', userReallocShrink h c (p + 1 + c) (1 + c) = some (h', 0) ∧
      Changed P h l (fun z => z = c) (fun _ _ => False) h' l' ∧
      Gave h.bitmap (Selected Present h.tabs (c + 1) p) h'.bitmap := by
  obtain ⟨-, hblock, -, -⟩ := ht.occurs hc.1
  obtain ⟨b, hloop, hgave⟩ := user_realloc_release_spec p h (c + 1)
  have hhead : clear h.tabs (c + 1) p c = hdr .used (p + 1) := by
    rw [clear, if_neg (by omega), hblock.1]
  unfold userReallocShrink
  rw [show p + 1 + c = c + 1 + p by omega, show c + 1 + p - (1 + c) = p by omega, hloop, show 1 + c - c = 1 by omega]
  simp only [if_true, hhead, pageAlign_hdr, or_free]
  have hswap : update (clear h.tabs (c + 1) p) c (hdr .free (p + 1)) =
      clear (update h.tabs c (hdr .free (p + 1))) (c + 1) (p + 1 - 1) := by
    funext i
    simp only [update_apply, clear]
    split_ifs <;> first | rfl | omega
  obtain ⟨h', l', hnorm, hchanged, -, hbitmap⟩ : ∃ h' l', userNormalize { h with
      tabs := update (clear h.tabs (c + 1) p) c (hdr .free (p + 1))
      memUsed := h.memUsed - BitVec.ofNat 32 (4096 * (p + 1)) + 4096
      bitmap := b } = some h' ∧ _ := changed_free_normalize ht hzero hguard hc hswap ⟨rfl, rfl⟩
  refine ⟨h', l', by rw [hnorm]; rfl, hchanged, ?_⟩
  rw [hbitmap]
  exact hgave

/-! ## Growing -/

theorem user_realloc_inplace_spec (ht : Tiled P h (l1 ++ ([(.used, p + 1), (.free, n)] ++ l2)))
    (hres : P .used memBlockReserved) (h1 : Row P h.tabs (h.heapBase / 4096) l1 c)
    (hseg : Row P h.tabs c [(.used, p + 1), (.free, n)] (c + (p + 1) + n))
    (h2 : Row P h.tabs (c + (p + 1) + n) l2 topPage) (hpq : p < q) (hfit : q ≤ p + n) :
    Reallocated P h (l1 ++ ([(.used, p + 1), (.free, n)] ++ l2)) c p q
      (some (userReallocInplace h c (p + 1 + c) (q + 1 + c))) := by
  have hblock2 := hseg.2.2.2.1
  have hend := row_le h2
  unfold topPage at hend
  have hfill : p + 1 + c + (q + 1 + c - (p + 1 + c)) ≤ 2 ^ 30 := by omega
  have hnext : h.tabs (p + 1 + c) = hdr .free n := by
    rw [show p + 1 + c = c + (p + 1) by omega]
    exact hblock2.1
  unfold userReallocInplace
  simp only [hnext, hdr_div, mul_comm _ 4096, or_free, or_used, show q + 1 + c - c = q + 1 by omega,
    show n + (p + 1 + c) - (q + 1 + c) = p + n - q by omega]
  let h' : Heap := { h with
    tabs := fill (update (if p + n - q = 0 then h.tabs else update h.tabs (q + 1 + c) (hdr .free (p + n - q))) c
      (hdr .used (q + 1))) (p + 1 + c) (q + 1 + c - (p + 1 + c)) memBlockReserved
    memUsed := h.memUsed + BitVec.ofNat 32 (4096 * (q + 1 + c - (p + 1 + c))) }
  have htabs' : ∀ i, h'.tabs i = if c + (p + 1) ≤ i ∧ i < c + (q + 1) then memBlockReserved
      else if i = c then hdr .used (q + 1)
      else if p + n ≠ q ∧ i = c + (q + 1) then hdr .free (p + n - q) else h.tabs i := by
    intro i
    show fill _ _ _ _ i = _
    simp only [fill_apply _ _ hfill, update_apply, ite_apply]
    split_ifs <;> first | rfl | omega
  have hnolive : ∀ z k n', ¬ Live (c + (p + 1)) [(.free, n)] z k n' := by
    simp
  obtain ⟨l', hresized⟩ : ∃ l', Resized P h _ c p c q h' l' := by
    refine resized_in_place ht h1 hseg h2 hnolive (by omega) ?_ (fun i hi hi' => ?_) (fun i hi hi' => ?_) (fun _ => hres)
      (fun hlt => ⟨?_, fun i hlo hhi => ?_⟩) ⟨rfl, rfl⟩ (fun i hi => ?_) ?_ ?_
    · rw [htabs', if_neg (by omega), if_pos rfl]
    · rw [htabs', if_neg (by omega), if_neg (by omega), if_neg (by omega)]
    · rw [htabs', if_pos (by omega)]
    · rw [htabs', if_neg (by omega), if_neg (by omega), if_pos (by omega)]
      congr 1
      omega
    · rw [htabs', if_neg (by omega), if_neg (by omega), if_neg (by omega)]
      exact hblock2.2 i (by omega) (by omega)
    · rw [htabs', if_neg (by omega), if_neg (by omega), if_neg (by omega)]
    · rw [← memUsed_more _ (le_of_lt hpq)]
      show h.memUsed + BitVec.ofNat 32 (4096 * (q + 1 + c - (p + 1 + c))) = _
      congr 3
      omega
    · refine (Gave.refl h.bitmap).congr fun r => ?_
      rw [show p - q = 0 by omega]
      exact iff_false_intro (not_selected_zero _ _ _ _)
  exact ⟨c, h', l', rfl, hresized⟩

theorem move_stores {tabs : Nat → Nat} (hhead : tabs c = hdr .used (p + 1)) (hpq : p < q) (hn : q + 1 ≤ n)
    (hapart : x + n ≤ c ∨ c + (p + 1) ≤ x) (hend : x + n ≤ 0x80000) (i : Nat) :
    (let placed := update (if n = q + 1 then tabs else update tabs (x + (q + 1)) (hdr .free (n - (q + 1)))) x
       (hdr .used (q + 1))
     fill (movePages p (update placed c (pageAlign (placed c) ||| memBlockFree)) (x + 1) (c + 1)) (x + 1 + p) (q - p)
       memBlockReserved) i =
      if x < i ∧ i < x + (q + 1) then (if i < x + 1 + p then tabs (c + (i - x)) else memBlockReserved)
      else clear (update (carve tabs x n x (q + 1)) c (hdr .free (p + 1))) (c + 1) (p + 1 - 1) i := by
  have hfit : x + 1 + p + (q - p) ≤ 2 ^ 30 := by omega
  have hapart' : x + 1 + p ≤ c + 1 ∨ c + 1 + p ≤ x + 1 := by omega
  have hplaced : update (if n = q + 1 then tabs else update tabs (x + (q + 1)) (hdr .free (n - (q + 1)))) x
      (hdr .used (q + 1)) c = hdr .used (p + 1) := by
    rw [update_of_ne (by omega), ← hhead]
    split_ifs
    · rfl
    · rw [update_of_ne (by omega)]
  simp only [hplaced, pageAlign_hdr, or_free, fill_apply _ _ hfit, move_pages_spec p _ _ _ hapart', clear, carve,
    update_apply, ite_apply]
  split_ifs <;> first | rfl | omega | (congr 1; omega)

theorem reallocated_move (ht : Tiled P h l) (hzero : P .free 0) (hres : P .used memBlockReserved)
    (hc : Live (h.heapBase / 4096) l c .used (p + 1)) (hpq : p < q) (hmoves : ¬ GrowsInPlace h c p q)
    (hx : Occurs (h.heapBase / 4096) l x .free n) (hn : q + 1 ≤ n)
    (htabs : ∀ i, h'.tabs i =
      if x < i ∧ i < x + (q + 1) then (if i < x + 1 + p then h.tabs (c + (i - x)) else memBlockReserved)
      else clear (update (carve h.tabs x n x (q + 1)) c (hdr .free (p + 1))) (c + 1) (p + 1 - 1) i)
    (hmem : h'.memUsed = h.memUsed + BitVec.ofNat 32 (4096 * (q - p))) (hbitmap : h'.bitmap = h.bitmap)
    (hsame : h'.heapBase = h.heapBase ∧ h'.heapTop = h.heapTop) :
    Reallocated P h l c p q (some (h', BitVec.ofNat 32 (4096 * (x + 1)))) := by
  obtain ⟨-, hblock, -, -⟩ := ht.occurs hc.1
  have hxlive : ∀ k n', ¬ Live (h.heapBase / 4096) l x k n' := by
    intro k n' hxl
    have hpos' := (ht.occurs hxl.1).1
    rcases occurs_apart ht.row hx hxl.1 with hle | hle | ⟨-, hk, -⟩
    · omega
    · omega
    · exact hxl.2 hk.symm
  have hxc : x ≠ c := by
    rintro rfl
    exact hxlive _ _ hc
  let placed : Heap := { h with tabs := carve h.tabs x n x (q + 1) }
  obtain ⟨l1, hnew⟩ : ∃ l1, NewBlock P h l x (q + 1) placed l1 :=
    newBlock_carve ht hres hx (le_refl x) (by omega) (by omega) rfl rfl ⟨rfl, rfl⟩
  have hc1 : Live (placed.heapBase / 4096) l1 c .used (p + 1) := (hnew.changed.live c _ _).mpr (.inl ⟨hc, id⟩)
  let freed : Heap := { h with
    tabs := clear (update (carve h.tabs x n x (q + 1)) c (hdr .free (p + 1))) (c + 1) (p + 1 - 1) }
  obtain ⟨l2, hfree⟩ : ∃ l2, Changed P placed l1 (fun z => z = c) (fun _ _ => False) freed l2 :=
    changed_free hnew.changed.tiled hzero hc1 rfl ⟨rfl, rfl⟩
  have hboth : Changed P h l (fun z => z = c) (fun z m => z = x ∧ m = q + 1) freed l2 :=
    hnew.changed.trans hfree (by simp) fun z m => by
      constructor
      · rintro ⟨rfl, rfl⟩
        exact .inl ⟨⟨rfl, rfl⟩, hxc⟩
      · rintro (⟨hz, -⟩ | hf)
        · exact hz
        · exact hf.elim
  have hx2 : Live (freed.heapBase / 4096) l2 x .used (q + 1) := (hboth.live x _ _).mpr (.inr ⟨rfl, rfl, rfl⟩)
  have hinside : ∀ i, x < i → i < x + (q + 1) → P .used (h'.tabs i) := by
    intro i hlo hhi
    rw [htabs, if_pos ⟨hlo, hhi⟩]
    by_cases hi : i < x + 1 + p
    · rw [if_pos hi]
      exact hblock.2 _ (by omega) (by omega)
    · rw [if_neg hi]
      exact hres
  have hmoved := changed_inside hboth.tiled hx2 hinside (fun i hi => by rw [htabs, if_neg (by omega)]) hsame
  refine ⟨x, h', l2, rfl, hboth.trans hmoved ?_ ?_, fun i hi hi' => ?_, fun i hi hi' => ?_, ?_, ?_,
    .inl ⟨hpq, hmoves⟩⟩
  · intro z k m hz
    constructor
    · exact .inl
    · rintro (hzc | rfl)
      · exact hzc
      · exact absurd hz (hxlive k m)
  · intro z m
    tauto
  · rw [htabs, if_pos (by omega), if_pos (by omega)]
    congr 1
    omega
  · rw [htabs, if_pos (by omega), if_neg (by omega)]
  · rw [hmem, memUsed_more _ (le_of_lt hpq)]
  · rw [hbitmap]
    refine (Gave.refl h.bitmap).congr fun r => ?_
    rw [show p - q = 0 by omega]
    exact iff_false_intro (not_selected_zero _ _ _ _)

theorem user_realloc_move_spec (ht : Tiled P h l) (hzero : P .free 0) (hres : P .used memBlockReserved)
    (hc : Live (h.heapBase / 4096) l c .used (p + 1)) (hpq : p < q) (hmoves : ¬ GrowsInPlace h c p q) :
    userReallocMove h c (p + 1 + c) (q + 1 + c) = some (h, 0) ∨
    Reallocated P h l c p q (userReallocMove h c (p + 1 + c) (q + 1 + c)) := by
  obtain ⟨-, hblock, -, hcend⟩ := ht.occurs hc.1
  unfold userReallocMove
  simp only [show q + 1 + c - c = q + 1 by omega, show p + 1 + c - c = p + 1 by omega, ht.top_page]
  rcases find_place_spec ht.row (q + 1) walkFuel (row_length_lt ht.row) with hexit | ⟨x, n, hx, hn, hfound⟩
  · left
    rw [hexit]
  right
  have hend := (ht.occurs hx).2.2.2
  have hapart : x + n ≤ c ∨ c + (p + 1) ≤ x := by
    rcases occurs_apart ht.row hx hc.1 with hle | hle | ⟨-, hk, -⟩
    · exact .inl hle
    · exact .inr hle
    · exact absurd hk.symm hc.2
  simp only [hfound, show (p + 1 + 2 ^ 32 - 1) % 2 ^ 32 = p by omega, mul_comm _ 4096, or_free, or_used,
    show (q + 1 + 2 ^ 32 - 1 - p) % 2 ^ 32 = q - p by omega]
  exact reallocated_move ht hzero hres hc hpq hmoves hx hn (move_stores hblock.1 hpq hn hapart hend) rfl rfl ⟨rfl, rfl⟩

/-! ## The whole call -/

def payloadPages (size : Nat) : Nat := (size + 4095) / 4096

theorem realloc_header (heax : eax.toNat / 4096 = c + 1) : eax ≠ 0 ∧ (eax - 4096).toNat / 4096 = c := by
  constructor
  · rintro rfl
    simp at heax
  have hle : (4096 : BitVec 32) ≤ eax := by
    rw [BitVec.le_def]
    show 4096 ≤ eax.toNat
    omega
  rw [BitVec.toNat_sub_of_le hle]
  show (eax.toNat - 4096) / 4096 = c
  omega

theorem realloc_pointer (hc : (eax - 4096).toNat / 4096 < topPage) :
    eax.toNat / 4096 = (eax - 4096).toNat / 4096 + 1 := by
  have hsub : (eax - 4096).toNat = (2 ^ 32 - 4096 + eax.toNat) % 2 ^ 32 := BitVec.toNat_sub ..
  unfold topPage at hc
  omega

theorem user_realloc_refused (hnonzero : eax ≠ 0) (hindex : (eax - 4096).toNat / 4096 = c)
    (hhead : h.tabs c &&& memBlockUsed = 0 ∨ h.tabs c &&& memBlockDontFree ≠ 0) :
    userRealloc h eax ebx = some (h, 0) := by
  unfold userRealloc
  rw [if_neg hnonzero]
  simp only [hindex]
  by_cases hused : h.tabs c &&& memBlockUsed = 0
  · rw [if_pos hused]
  · rw [if_neg hused, if_pos (hhead.resolve_left hused)]

theorem user_realloc_used (hhead : h.tabs c = hdr .used (p + 1)) (heax : eax.toNat / 4096 = c + 1)
    (hebx : ebx.toNat ≤ 0xFFFFE000) :
    userRealloc h eax ebx = if p + 1 + c ≥ payloadPages ebx.toNat + 1 + c then
        userReallocShrink h c (p + 1 + c) (payloadPages ebx.toNat + 1 + c)
      else if GrowsInPlace h c p (payloadPages ebx.toNat) then
        some (userReallocInplace h c (p + 1 + c) (payloadPages ebx.toNat + 1 + c))
      else userReallocMove h c (p + 1 + c) (payloadPages ebx.toNat + 1 + c) := by
  obtain ⟨hnonzero, hindex⟩ := realloc_header heax
  have hpages : (ebx.toNat + 0x1FFF) % 2 ^ 32 / 4096 = payloadPages ebx.toNat + 1 := by
    unfold payloadPages
    omega
  unfold userRealloc
  rw [if_neg hnonzero]
  simp only [hindex, hhead, hdr_and_used, hdr_and_dontFree, hdr_div, hpages, reduceCtorEq, if_false,
    not_true_eq_false, ne_eq, not_false_eq_true]
  rfl

theorem user_realloc_spec (ht : Tiled P h l) (hzero : P .free 0) (hres : P .used memBlockReserved)
    (hc : Live (h.heapBase / 4096) l c .used (p + 1)) (heax : eax.toNat / 4096 = c + 1) (hpos : 0 < ebx.toNat)
    (hebx : ebx.toNat ≤ 0xFFFFE000) :
    userRealloc h eax ebx = some (h, 0) ∨
    Reallocated P h l c p (payloadPages ebx.toNat) (userRealloc h eax ebx) := by
  obtain ⟨hpos1, hblock, -, hend⟩ := ht.occurs hc.1
  have hq : 0 < payloadPages ebx.toNat := by unfold payloadPages; omega
  rw [user_realloc_used hblock.1 heax hebx]
  generalize payloadPages ebx.toNat = q at hq ⊢
  by_cases hshrink : p + 1 + c ≥ q + 1 + c
  · rw [if_pos hshrink]
    exact .inr (user_realloc_shrink_spec ht hzero hc hq (by omega))
  rw [if_neg hshrink]
  split_ifs with hnext
  swap
  · exact user_realloc_move_spec ht hzero hres hc (by omega) hnext
  -- The block behind is free and large enough.
  obtain ⟨hbelow, hbit, hfit⟩ := hnext
  rw [ht.top_page] at hbelow
  obtain ⟨l1, l2, rfl, h1, h2⟩ := tiles_cut ht.row hc.1
  rw [show p + 1 + c = c + (p + 1) by omega] at hbelow hbit hfit
  rcases l2 with _ | ⟨⟨k, n⟩, l2⟩
  · exact absurd h2 (Nat.ne_of_lt hbelow)
  have hhead := h2.2.1.1
  rw [hhead] at hbit hfit
  rw [ne_eq, hdr_and_free, not_not] at hbit
  rw [hdr_div] at hfit
  subst hbit
  right
  have hseg : Row P h.tabs c [(.used, p + 1), (.free, n)] (c + (p + 1) + n) :=
    ⟨hpos1, hblock, h2.1, h2.2.1, rfl⟩
  exact user_realloc_inplace_spec ht hres h1 hseg h2.2.2 (by omega) (by omega)

theorem user_realloc_outcomes (ht : Tiled P h l) (hzero : P .free 0) (hres : P .used memBlockReserved)
    (hquiet : ∀ k e, P k e → e &&& memBlockUsed = 0) (hguard : h.tabs topPage &&& memBlockUsed = 0)
    (heax : eax.toNat / 4096 = c + 1) (hlo : h.heapBase / 4096 ≤ c) (hhi : c < topPage)
    (hebx : ebx.toNat ≤ 0xFFFFE000) :
    userRealloc h eax ebx = some (h, 0) ∨ ∃ p, Live (h.heapBase / 4096) l c .used (p + 1) ∧
      ((ebx = 0 ∧ ∃ h' l', userRealloc h eax ebx = some (h', 0) ∧
          Changed P h l (fun z => z = c) (fun _ _ => False) h' l' ∧
          Gave h.bitmap (Selected Present h.tabs (c + 1) p) h'.bitmap) ∨
        Reallocated P h l c p (payloadPages ebx.toNat) (userRealloc h eax ebx)) := by
  by_cases hhead : h.tabs c &&& memBlockUsed = 0 ∨ h.tabs c &&& memBlockDontFree ≠ 0
  · exact .inl (user_realloc_refused (realloc_header heax).1 (realloc_header heax).2 hhead)
  rw [not_or, not_ne_iff] at hhead
  obtain ⟨k, n, hlive⟩ := live_of_used_bit hquiet ht.row hlo hhi hhead.1
  obtain ⟨hpos, hblock, -, -⟩ := ht.occurs hlive.1
  obtain ⟨p, rfl⟩ : ∃ p, n = p + 1 := ⟨n - 1, by omega⟩
  have hk : k = .used := by
    have hfixed := hhead.2
    rw [hblock.1, hdr_and_dontFree] at hfixed
    cases k with
    | free => exact absurd rfl hlive.2
    | used => rfl
    | fixed => exact absurd rfl hfixed
  subst hk
  rcases Nat.eq_zero_or_pos ebx.toNat with hz | hpos
  · obtain rfl : ebx = 0 := BitVec.eq_of_toNat_eq hz
    refine .inr ⟨p, hlive, .inl ⟨rfl, ?_⟩⟩
    rw [user_realloc_used hblock.1 heax hebx, if_pos (by show p + 1 + c ≥ 0 + 1 + c; omega)]
    exact user_realloc_to_zero_spec ht hzero hguard hlive
  · rcases user_realloc_spec ht hzero hres hlive heax hpos hebx with hfail | hdone
    · exact .inl hfail
    · exact .inr ⟨p, hlive, .inr hdone⟩

def AnyEntry (_ : Kind) (_ : Nat) : Prop := True

/-- The first pages of the block move with it. A call that fails changes nothing. -/
theorem user_realloc_preserves {c p : Nat} {eax ebx : BitVec 32} (ht : Tiled AnyEntry h l)
    (hc : Live (h.heapBase / 4096) l c .used (p + 1)) (heax : eax.toNat / 4096 = c + 1) (hpos : 0 < ebx.toNat)
    (hebx : ebx.toNat ≤ 0xFFFFE000) :
    let q := (ebx.toNat + 4095) / 4096
    ∃ h' r, userRealloc h eax ebx = some (h', r) ∧ (r = 0 → h' = h) ∧
      (r ≠ 0 → ∃ x l', r = BitVec.ofNat 32 (4096 * (x + 1)) ∧ Tiled AnyEntry h' l' ∧
        Live (h.heapBase / 4096) l' x .used (q + 1) ∧
        (∀ i, i < min p q → h'.tabs (x + 1 + i) = h.tabs (c + 1 + i)) ∧
        (∀ i, min p q ≤ i → i < q → h'.tabs (x + 1 + i) = memBlockReserved) ∧
        (∀ z k n, z ≠ c → Live (h.heapBase / 4096) l z k n →
          Live (h.heapBase / 4096) l' z k n ∧ ∀ i, z ≤ i → i < z + n → h'.tabs i = h.tabs i) ∧
        (∀ z k n, z ≠ x → Live (h.heapBase / 4096) l' z k n → Live (h.heapBase / 4096) l z k n) ∧
        h'.heapBase = h.heapBase ∧
        h'.memUsed = h.memUsed + BitVec.ofNat 32 (4096 * q) - BitVec.ofNat 32 (4096 * p)) := by
  intro q
  rcases user_realloc_spec ht trivial trivial hc heax hpos hebx with hfail | ⟨x, h', l', hcall, hnew⟩
  · exact ⟨h, 0, hfail, fun _ => rfl, fun hne => absurd rfl hne⟩
  have hx : Live (h.heapBase / 4096) l' x .used (q + 1) := (hnew.changed.live x _ _).mpr (.inr ⟨rfl, rfl, rfl⟩)
  have hnonzero : BitVec.ofNat 32 (4096 * (x + 1)) ≠ 0 := by
    have hend := hnew.changed.tiled.occurs (by rw [hnew.changed.heapBase]; exact hx.1)
    exact (block_pointer (by omega)).2
  refine ⟨h', _, hcall, fun hz => absurd hz hnonzero, fun _ => ⟨x, l', rfl, hnew.changed.tiled, hx, ?_, ?_, ?_, ?_,
    hnew.changed.heapBase, hnew.memUsed⟩⟩
  · intro i hi
    exact hnew.moved i (by omega) (by show i < q; omega)
  · intro i hlo hhi
    exact hnew.reserved i (by omega) hhi
  · intro z k n hz hlive
    exact ⟨(hnew.changed.live z k n).mpr (.inl ⟨hlive, hz⟩), hnew.changed.kept z k n hlive hz⟩
  · intro z k n hz hlive
    rcases (hnew.changed.live z k n).mp hlive with ⟨hold, -⟩ | ⟨-, hzx, -⟩
    · exact hold
    · exact absurd hzx hz

def twoBlocks : Heap where
  tabs i :=
    if i = 0x7FFF8 then hdr .used 3 else if i = 0x7FFF9 then 0x5007 else if i = 0x7FFFA then memBlockReserved
    else if i = 0x7FFFB then hdr .free 5 else 0
  heapBase := 0x7FFF8000
  heapTop := heapTopAddr
  memUsed := 0x7FFFA000
  bitmap := { map := fun _ => 0, pageStart := 0, pageEnd := 0, pagesFree := 0 }

theorem twoBlocks_tiled : Tiled AnyEntry twoBlocks [(.used, 3), (.free, 5)] :=
  ⟨rfl, rfl, by decide, ⟨rfl, fun _ _ _ => trivial⟩, by decide, ⟨rfl, fun _ _ _ => trivial⟩, rfl⟩

theorem user_realloc_preserves_small : ∃ h' r, userRealloc twoBlocks 0x7FFF9000 0x4000 = some (h', r) ∧ r ≠ 0 ∧
    h'.memUsed = twoBlocks.memUsed + 0x2000 := by
  obtain ⟨h', r, hcall, -, hdone⟩ := user_realloc_preserves twoBlocks_tiled ⟨.inl ⟨rfl, rfl, rfl⟩, by decide⟩
    (by decide : (0x7FFF9000 : BitVec 32).toNat / 4096 = 0x7FFF8 + 1) (by decide : 0 < (0x4000 : BitVec 32).toNat)
    (by decide)
  have hret : (userRealloc twoBlocks 0x7FFF9000 0x4000).map Prod.snd = some 0x7FFF9000 := by decide +kernel
  rw [hcall] at hret
  obtain rfl : r = 0x7FFF9000 := Option.some.inj hret
  obtain ⟨x, l', -, -, -, -, -, -, -, -, hmem⟩ := hdone (by decide)
  exact ⟨h', _, hcall, by decide, by rw [hmem]; decide⟩

end Kolibri.UserHeap
