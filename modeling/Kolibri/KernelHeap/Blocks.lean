import Kolibri.KernelHeap.Lists

/-! # The row of blocks

A block that is taken out of its list is `lim` until it is back in one or part of its neighbour.
-/

namespace Kolibri.KernelHeap

open LinkedLists Tiling FreeList Function List
open UserHeap (memBlockFree memBlockUsed)

variable {h h' : Space} {chain chain' spare l1 l2 : List Node} {lim lim' : Option Node} {cls : Node → Nat} {x y : Node}

/-! ## Sums and nodes -/

theorem sum_change {f f' : Node → Nat} {l : List Node} (hnodup : l.Nodup) (hx : x ∈ l)
    (heq : ∀ n ∈ l, n ≠ x → f' n = f n) : (l.map f').sum + f x = (l.map f).sum + f' x := by
  obtain ⟨l1, l2, rfl⟩ := append_of_mem hx
  obtain ⟨-, hn, hdisj⟩ := nodup_append.mp hnodup
  obtain ⟨hfresh, -⟩ := nodup_cons.mp hn
  have h₁ : l1.map f' = l1.map f := by
    apply map_congr_left
    intro n hl
    exact heq n (by simp [hl]) (hdisj n hl x mem_cons_self)
  have h₂ : l2.map f' = l2.map f := by
    apply map_congr_left
    intro n hl
    exact heq n (by simp [hl]) fun he => hfresh (he ▸ hl)
  simp only [map_append, map_cons, sum_append, sum_cons, h₁, h₂]
  omega

theorem Inv.heapFree_le (I : Inv h chain spare lim cls) : h.heapFree ≤ h.heapSize ∧ h.heapSize < 2 ^ 32 := by
  have hsum := tiles_sum I.tiles
  have hle : (chain.map (weight h lim)).sum ≤ (chain.map h.size).sum := weight_sum_le chain
  have hfits := I.fits
  have hstart : heapStart = 0x80820000 := rfl
  have hfree := I.heapFree
  omega

theorem Inv.unlisted (I : Inv h chain spare lim cls) (hy : y ∈ spare ++ [Node.null] ∨ lim = some y) :
    Unlisted (InFree h chain lim cls) (InUsed h chain lim) y := by
  rcases hy with hy | rfl
  · have hout : ¬ IsHead y ∧ y ∉ chain := by
      rcases mem_append.mp hy with hy | hy
      · exact ⟨(I.spare_block_ne hy).2.2.2, I.spare_notMem hy⟩
      · obtain rfl := mem_singleton.mp hy
        exact ⟨by rintro ⟨⟩, fun hn => (I.mem_block_ne hn).1 rfl⟩
    exact ⟨hout.1, fun j _ => ⟨fun hf => hout.2 hf.1, fun hu => hout.2 hu.1⟩⟩
  · exact ⟨(I.mem_block_ne (I.limbo y rfl)).2.2.2, fun j _ => ⟨fun hf => hf.2.1.2 rfl, fun hu => hu.2.1.2 rfl⟩⟩

theorem Inv.spares_congr (I : Inv h chain spare lim cls) {next : Node → Node}
    (hframe : ∀ y, Unlisted (InFree h chain lim cls) (InUsed h chain lim) y → y ∉ chain → next y = h.next y) :
    Chain next h.nextMemblock (spare ++ [Node.null]) := by
  refine chain_congr I.spares fun y hy => hframe y (I.unlisted (.inl hy)) ?_
  rcases mem_append.mp hy with hy | hy
  · exact I.spare_notMem hy
  · obtain rfl := mem_singleton.mp hy
    exact fun hn => (I.mem_block_ne hn).1 rfl

theorem alloc_congr (hused : ∀ n, n ∈ chain' ∧ Used h' lim' n ↔ n ∈ chain ∧ Used h lim n)
    (heq : ∀ n, n ∈ chain → Used h lim n → h'.base n = h.base n ∧ h'.size n = h.size n) (a s : Nat) :
    Alloc h' chain' lim' a s ↔ Alloc h chain lim a s := by
  constructor
  · rintro ⟨n, hn, hu, rfl, rfl⟩
    obtain ⟨hn', hu'⟩ := (hused n).mp ⟨hn, hu⟩
    obtain ⟨hb, hs⟩ := heq n hn' hu'
    exact ⟨n, hn', hu', hb.symm, hs.symm⟩
  · rintro ⟨n, hn, hu, rfl, rfl⟩
    obtain ⟨hn', hu'⟩ := (hused n).mpr ⟨hn, hu⟩
    obtain ⟨hb, hs⟩ := heq n hn hu
    exact ⟨n, hn', hu', hb, hs⟩

/-! ## Between the lists -/

theorem Inv.unlink_free (I : Inv h chain spare none cls) (hx : x ∈ chain) (hfree : h.flags x = memBlockFree) :
    Inv (clearIfEmpty (listDel h x) (cls x)) chain spare (some x) cls ∧
      ∀ a s, Alloc (clearIfEmpty (listDel h x) (cls x)) chain (some x) a s ↔ Alloc h chain none a s := by
  obtain ⟨members, L⟩ := I.listed
  have hxfree : Free h none x := ⟨hfree, by simp⟩
  obtain ⟨⟨members', L'⟩, hframe⟩ := L.remove_free (I.classes x hx hxfree) ⟨hx, hxfree, rfl⟩
  have hspares := I.spares_congr fun y hy _ => hframe y hy
  rw [clear_if_empty_eq] at L' hspares ⊢
  have hused : ∀ n, n ∈ chain ∧ Used h (some x) n ↔ n ∈ chain ∧ Used h none n := by
    intro n
    simp only [Used, ne_eq, reduceCtorEq, not_false_eq_true, and_true, Option.some.injEq]
    refine ⟨fun hn => ⟨hn.1, hn.2.1⟩, fun hn => ⟨hn.1, hn.2, ?_⟩⟩
    rintro rfl
    exact free_ne_used (hfree.symm.trans hn.2)
  refine ⟨{ I with
    listed := ⟨members', L'.congr (fun j n hj => ?_) (fun j n hj => ?_) (fun y _ => ⟨rfl, rfl⟩) rfl⟩
    flags := fun n hn => .inr ((I.flags n hn).resolve_left (by simp))
    apart := fun n hn hf hf' => I.apart n hn ⟨hf.1, by simp⟩ ⟨hf'.1, by simp⟩
    heapFree := ?_
    spares := hspares
    limbo := fun n hn => (Option.some.inj hn) ▸ hx
    classes := fun n hn hf => I.classes n hn ⟨hf.1, by simp⟩ }, alloc_congr hused fun n _ _ => ⟨rfl, rfl⟩⟩
  · simp only [InFree, Free]
    have : some x ≠ some n ↔ n ≠ x := by simp [eq_comm]
    rw [this]
    simp
    tauto
  · rw [InUsed, InUsed, ← and_assoc, ← and_assoc]
    exact and_congr_left fun _ => hused n
  · refine I.heapFree.trans (congrArg _ (map_congr_left fun n hn => ?_))
    simp only [weight, reduceCtorEq, or_false, Option.some.injEq]
    refine if_congr ⟨.inl, fun hf => hf.elim id fun he => he ▸ hfree⟩ rfl rfl

theorem Inv.link_used (I : Inv h chain spare (some x) cls) :
    Inv (addToUsed h x) chain spare none cls ∧
      ∀ a s, Alloc (addToUsed h x) chain none a s ↔ Alloc h chain (some x) a s ∨ a = h.base x ∧ s = h.size x := by
  obtain ⟨members, L⟩ := I.listed
  have hx := I.limbo x rfl
  have hne := I.mem_block_ne hx
  obtain ⟨⟨members', L'⟩, hframe⟩ := L.add_used (usedIndex_lt (h.base x)) (I.unlisted (.inr rfl))
  have hspares := I.spares_congr fun y hy hyc => hframe y hy fun he => hyc (he ▸ hx)
  have hflags : ∀ n, n ≠ x → (addToUsed h x).flags n = h.flags n := fun n hn => update_of_ne hn _ _
  have hself : (addToUsed h x).flags x = memBlockUsed := update_self ..
  have hfree : ∀ n, Free (addToUsed h x) none n ↔ Free h (some x) n := by
    intro n
    by_cases hn : n = x
    · simp [Free, hn, hself, free_ne_used.symm]
    · simp [Free, hflags n hn, Ne.symm hn]
  have hused : ∀ n, Used (addToUsed h x) none n ↔ Used h (some x) n ∨ n = x := by
    intro n
    by_cases hn : n = x
    · simp [Used, hn, hself]
    · simp [Used, hflags n hn, hn, Ne.symm hn]
  refine ⟨{ I with
    listed := ⟨members', L'.congr (fun j n hj => ?_) (fun j n hj => ?_) (fun y _ => ⟨rfl, rfl⟩) rfl⟩
    flags := fun n hn => ?_
    ends := ?_
    apart := fun n hn hf hf' => I.apart n hn ((hfree n).mp hf) ((hfree _).mp hf')
    heapFree := ?_
    spares := hspares
    limbo := fun n hn => by cases hn
    classes := fun n hn hf => I.classes n hn ((hfree n).mp hf) }, fun a s => ?_⟩
  · rw [InFree, InFree, hfree]
  · simp only [InUsed, hused]
    constructor
    · rintro ⟨hn, hu | rfl, rfl⟩
      · exact .inl ⟨hn, hu, rfl⟩
      · exact .inr ⟨rfl, rfl⟩
    · rintro (⟨hn, hu, rfl⟩ | ⟨rfl, rfl⟩)
      · exact ⟨hn, .inl hu, rfl⟩
      · exact ⟨hx, .inr rfl, rfl⟩
  · by_cases hnx : n = x
    · exact .inr (.inr (hnx ▸ hself))
    · rw [hflags n hnx]
      exact .inr ((I.flags n hn).resolve_left (by simpa using Ne.symm hnx))
  · rw [hflags _ (Ne.symm hne.2.1), hflags _ (Ne.symm hne.2.2.1)]
    exact I.ends
  · have hsum : (chain.map (weight (addToUsed h x) none)).sum + _ = (chain.map (weight h (some x))).sum + _ :=
      sum_change I.chain_nodup hx fun n _ hn => by simp [weight, hflags n hn, Ne.symm hn]; rfl
    have hbefore : weight h (some x) x = h.size x := by simp [weight]
    have hafter : weight (addToUsed h x) none x = 0 := by simp [weight, hself, free_ne_used.symm]
    have hfree := I.heapFree
    have hle := I.heapFree_le
    show (h.heapFree + 2 ^ 32 - h.size x) % 2 ^ 32 = _
    omega
  · constructor
    · rintro ⟨n, hn, hu, rfl, rfl⟩
      rcases (hused n).mp hu with hu | rfl
      · exact .inl ⟨n, hn, hu, rfl, rfl⟩
      · exact .inr ⟨rfl, rfl⟩
    · rintro (⟨n, hn, hu, rfl, rfl⟩ | ⟨rfl, rfl⟩)
      · exact ⟨n, hn, (hused n).mpr (.inl hu), rfl, rfl⟩
      · exact ⟨x, hx, (hused x).mpr (.inr rfl), rfl, rfl⟩

theorem Inv.unlink_used (I : Inv h chain spare none cls) (hx : x ∈ chain) (hused : h.flags x = memBlockUsed)
    (cnt : Nat → BitVec 32)
    (hh : h' = { listDel { h with memHashCnt := cnt } x with heapFree := (h.heapFree + h.size x) % 2 ^ 32 }) :
    Inv h' chain spare (some x) cls ∧ ∀ a s, Alloc h' chain (some x) a s ↔ Alloc h chain none a s ∧ a ≠ h.base x := by
  subst hh
  obtain ⟨members, L⟩ := I.listed
  have hxused : Used h none x := ⟨hused, by simp⟩
  obtain ⟨⟨members', L'⟩, hframe⟩ := L.remove_used (usedIndex_lt (h.base x)) ⟨hx, hxused, rfl⟩
  have hnofree : h.flags x ≠ memBlockFree := fun he => free_ne_used (he.symm.trans hused)
  refine ⟨{ I with
    listed := ⟨members', L'.congr (fun j n hj => ?_) (fun j n hj => ?_) (fun y _ => ⟨rfl, rfl⟩) rfl⟩
    flags := fun n hn => .inr ((I.flags n hn).resolve_left (by simp))
    apart := fun n hn hf hf' => I.apart n hn ⟨hf.1, by simp⟩ ⟨hf'.1, by simp⟩
    heapFree := ?_
    spares := I.spares_congr fun y hy _ => hframe y hy
    limbo := fun n hn => (Option.some.inj hn) ▸ hx
    classes := fun n hn hf => I.classes n hn ⟨hf.1, by simp⟩ }, fun a s => ?_⟩
  · simp only [InFree, Free]
    have hn : h.flags n = memBlockFree → some x ≠ some n := by
      rintro hf ⟨⟩
      exact hnofree hf
    simp
    tauto
  · simp only [InUsed, Used]
    have hne : some x ≠ some n ↔ n ≠ x := by simp [eq_comm]
    rw [hne]
    simp
    tauto
  · have hsum : (chain.map (weight h (some x))).sum + _ = (chain.map (weight h none)).sum + _ :=
      sum_change I.chain_nodup hx fun n _ hn => by simp [weight, Ne.symm hn]
    have hbefore : weight h none x = 0 := by simp [weight, hnofree]
    have hafter : weight h (some x) x = h.size x := by simp [weight]
    have hall : (chain.map (weight h (some x))).sum ≤ (chain.map h.size).sum := weight_sum_le chain
    have htiles := tiles_sum I.tiles
    have hfree := I.heapFree
    have hle := I.heapFree_le
    show (h.heapFree + h.size x) % 2 ^ 32 = (chain.map (weight h (some x))).sum
    omega
  · constructor
    · rintro ⟨n, hn, hu, rfl, rfl⟩
      refine ⟨⟨n, hn, ⟨hu.1, by simp⟩, rfl, rfl⟩, fun hb => hu.2 ?_⟩
      rw [I.base_inj hn hx hb]
    · rintro ⟨⟨n, hn, hu, rfl, rfl⟩, hb⟩
      refine ⟨n, hn, ⟨hu.1, ?_⟩, rfl, rfl⟩
      rintro ⟨⟩
      exact hb rfl

theorem Inv.link_free (I : Inv h chain spare (some x) cls) {e : Nat} (he : e < 64)
    (hnext : h.flags (h.nextBlock x) ≠ memBlockFree) (hprev : h.flags (h.prevBlock x) ≠ memBlockFree)
    (hh : h' = addBlock { h with flags := update h.flags x memBlockFree } x e) :
    Inv h' chain spare none (update cls x e) ∧ ∀ a s, Alloc h' chain none a s ↔ Alloc h chain (some x) a s := by
  subst hh
  obtain ⟨members, L⟩ := I.listed
  have hx := I.limbo x rfl
  have hne := I.mem_block_ne hx
  obtain ⟨⟨members', L'⟩, hframe⟩ := L.add_free he (I.unlisted (.inr rfl))
  have hspares := I.spares_congr fun y hy hyc => hframe y hy fun heq => hyc (heq ▸ hx)
  set h' := addBlock { h with flags := update h.flags x memBlockFree } x e with hh
  have hflags : ∀ n, n ≠ x → h'.flags n = h.flags n := fun n hn => update_of_ne hn _ _
  have hself : h'.flags x = memBlockFree := update_self ..
  have hfree : ∀ n, Free h' none n ↔ Free h (some x) n ∨ n = x := by
    intro n
    by_cases hn : n = x
    · simp [Free, hn, hself]
    · simp [Free, hflags n hn, hn, Ne.symm hn]
  have hused : ∀ n, Used h' none n ↔ Used h (some x) n := by
    intro n
    by_cases hn : n = x
    · simp [Used, hn, hself, free_ne_used]
    · simp [Used, hflags n hn, Ne.symm hn]
  refine ⟨{ I with
    listed := ⟨members', L'.congr (fun j n hj => ?_) (fun j n hj => ?_) (fun y _ => ⟨rfl, rfl⟩) rfl⟩
    flags := fun n hn => ?_
    ends := ?_
    apart := fun n hn hf hf' => ?_
    heapFree := ?_
    spares := hspares
    limbo := fun n hn => by cases hn
    classes := fun n hn hf => ?_ }, alloc_congr (fun n => and_congr_right fun _ => hused n) fun n _ _ => ⟨rfl, rfl⟩⟩
  · simp only [InFree, hfree]
    by_cases hnx : n = x
    · subst hnx
      simp [hx, Free, eq_comm]
    · simp [hnx]
  · rw [InUsed, InUsed, hused]
    rfl
  · by_cases hnx : n = x
    · exact .inr (.inl (hnx ▸ hself))
    · rw [hflags n hnx]
      exact .inr ((I.flags n hn).resolve_left (by simpa using Ne.symm hnx))
  · rw [hflags _ (Ne.symm hne.2.1), hflags _ (Ne.symm hne.2.2.1)]
    exact I.ends
  · change Free h' none (h.nextBlock n) at hf'
    rcases (hfree n).mp hf with hf | rfl
    · rcases (hfree _).mp hf' with hf' | hf'
      · exact I.apart n hn hf hf'
      · -- `x` is behind a free block.
        have hback := path_prev_next I.path (.inr hn)
        rw [hf'] at hback
        exact hprev (hback ▸ hf.1)
    · rcases (hfree _).mp hf' with hf' | hf'
      · exact hnext hf'.1
      · exact path_next_ne I.path I.chain_ends.1 hn hf'
  · refine I.heapFree.trans (congrArg _ (map_congr_left fun n hn => ?_))
    by_cases hnx : n = x
    · simp [weight, hnx, hself]
      rfl
    · simp [weight, hflags n hnx, Ne.symm hnx]
      rfl
  · by_cases hnx : n = x
    · rw [hnx, update_self]
      exact he
    · rw [update_of_ne hnx]
      exact I.classes n hn (((hfree n).mp hf).resolve_right hnx)

theorem Inv.move_block (I : Inv h chain spare lim cls) (hx : x ∈ chain) (hfree : Free h lim x) {e : Nat} (he : e < 64) :
    Inv (moveBlock h x (cls x) e) chain spare lim (update cls x e) ∧
      (∀ a s, Alloc (moveBlock h x (cls x) e) chain lim a s ↔ Alloc h chain lim a s) ∧
      (moveBlock h x (cls x) e).size = h.size ∧ (moveBlock h x (cls x) e).base = h.base ∧
      (moveBlock h x (cls x) e).flags = h.flags ∧ (moveBlock h x (cls x) e).heapSize = h.heapSize ∧
      (moveBlock h x (cls x) e).heapFree = h.heapFree := by
  by_cases hsame : e = cls x
  · rw [moveBlock, if_pos hsame, hsame, update_eq_self]
    exact ⟨I, fun _ _ => .rfl, rfl, rfl, rfl, rfl, rfl⟩
  obtain ⟨members, L⟩ := I.listed
  obtain ⟨⟨members1, L1⟩, hframe1⟩ := L.remove_free (I.classes x hx hfree) ⟨hx, hfree, rfl⟩
  have hun : Unlisted (fun j n => InFree h chain lim cls j n ∧ n ≠ x) (InUsed h chain lim) x :=
    ⟨(I.mem_block_ne hx).2.2.2, fun j _ => ⟨fun hf => hf.2 rfl, fun hu => free_ne_used (hfree.1.symm.trans hu.2.1.1)⟩⟩
  obtain ⟨⟨members2, L2⟩, hframe2⟩ := L1.add_free he hun
  have hspares := I.spares_congr fun y hy hyc =>
    (hframe2 y ⟨hy.1, fun j hj => ⟨fun hf => (hy.2 j hj).1 hf.1, (hy.2 j hj).2⟩⟩ fun heq => hyc (heq ▸ hx)).trans
      (hframe1 y hy)
  rw [moveBlock, if_neg hsame]
  rw [clear_if_empty_eq] at L2 hspares ⊢
  refine ⟨{ I with
    listed := ⟨members2, L2.congr (fun j n hj => ?_) (fun j n hj => .rfl) (fun y _ => ⟨rfl, rfl⟩) rfl⟩
    spares := hspares
    classes := fun n hn hf => ?_ }, fun _ _ => .rfl, rfl, rfl, rfl, rfl, rfl⟩
  · by_cases hnx : n = x
    · subst hnx
      simp only [InFree, update_self, ne_eq, not_true_eq_false, and_false, and_true, false_or]
      exact ⟨fun hn => hn.2.2.symm, fun hj => ⟨hx, hfree, hj.symm⟩⟩
    · simp only [InFree, update_of_ne hnx, ne_eq, hnx, not_false_eq_true, and_true, and_false, or_false]
      rfl
  · by_cases hnx : n = x
    · rw [hnx, update_self]
      exact he
    · rw [update_of_ne hnx]
      exact I.classes n hn hf

/-! ## Splitting and joining blocks -/

theorem tiles_row_congr {l : List Node} {a b : Nat} (ht : Tiles (At h) a (l.map fun n => (n, h.size n)) b)
    (heq : ∀ n ∈ l, h'.base n = h.base n ∧ h'.size n = h.size n) :
    Tiles (At h') a (l.map fun n => (n, h'.size n)) b := by
  induction l generalizing a with
  | nil => exact ht
  | cons n l ih =>
    obtain ⟨hpos, ⟨hb, -, hmod⟩, hl⟩ := ht
    obtain ⟨hbase, hsize⟩ := heq n mem_cons_self
    refine ⟨by rwa [hsize], ⟨by rw [hbase, hb], rfl, by rwa [hsize]⟩, ?_⟩
    rw [hsize]
    exact ih hl fun m hm => heq m (mem_cons_of_mem _ hm)

theorem tiles_row_edit (mid mid' : List Node) {a b : Nat}
    (ht : Tiles (At h) a ((l1 ++ (mid ++ l2)).map fun n => (n, h.size n)) b)
    (hstay : ∀ n ∈ l1 ++ l2, h'.base n = h.base n ∧ h'.size n = h.size n)
    (hmid : ∀ c d, Tiles (At h) c (mid.map fun n => (n, h.size n)) d →
      Tiles (At h') c (mid'.map fun n => (n, h'.size n)) d) :
    Tiles (At h') a ((l1 ++ (mid' ++ l2)).map fun n => (n, h'.size n)) b := by
  simp only [map_append, tiles_append] at ht ⊢
  obtain ⟨c, ht1, d, htm, ht2⟩ := ht
  exact ⟨c, tiles_row_congr ht1 fun n hn => hstay n (by simp [hn]), d, hmid c d htm,
    tiles_row_congr ht2 fun n hn => hstay n (by simp [hn])⟩

theorem weight_edit (mid mid' : List Node) (hstay : ∀ n ∈ l1 ++ l2, weight h' lim' n = weight h lim n)
    (hmid : (mid'.map (weight h' lim')).sum = (mid.map (weight h lim)).sum) :
    ((l1 ++ (mid ++ l2)).map (weight h lim)).sum = ((l1 ++ (mid' ++ l2)).map (weight h' lim')).sum := by
  have h₁ : l1.map (weight h' lim') = l1.map (weight h lim) :=
    map_congr_left fun n hn => hstay n (by simp [hn])
  have h₂ : l2.map (weight h' lim') = l2.map (weight h lim) :=
    map_congr_left fun n hn => hstay n (by simp [hn])
  simp [map_append, sum_append, h₁, h₂, hmid]

theorem Inv.split (I : Inv h (l1 ++ x :: l2) (y :: spare) none cls) (hfree : h.flags x = memBlockFree) {s : Nat}
    (hpos : 0 < s) (hmod : s % 4096 = 0) (hlt : s < h.size x) :
    Inv (splitBlock h y x s) (l1 ++ y :: x :: l2) spare (some y) cls ∧
      (∀ a t, Alloc (splitBlock h y x s) (l1 ++ y :: x :: l2) (some y) a t ↔ Alloc h (l1 ++ x :: l2) none a t) ∧
      (splitBlock h y x s).base y = h.base x ∧ (splitBlock h y x s).size y = s ∧
      ∀ n, n ≠ x → n ≠ y → (splitBlock h y x s).size n = h.size n := by
  obtain ⟨members, L⟩ := I.listed
  have hxm : x ∈ l1 ++ x :: l2 := by simp
  have hyout : y ∉ l1 ++ x :: l2 := I.spare_notMem mem_cons_self
  have hyne := I.spare_block_ne (mem_cons_self : y ∈ y :: spare)
  have hyun := I.unlisted (.inl (mem_append_left _ (mem_cons_self : y ∈ y :: spare)))
  have hxy : x ≠ y := fun he => hyout (he ▸ hxm)
  have hmem : ∀ n, n ∈ l1 ++ y :: x :: l2 ↔ n ∈ l1 ++ x :: l2 ∨ n = y := by
    intro n
    simp only [mem_append, mem_cons]
    tauto
  have hback : h.nextBlock (h.prevBlock x) = x := path_next_prev I.path (.inl hxm)
  obtain ⟨-, -, hxmod, -, hxhi⟩ := I.mem_spec hxm
  have hfits := I.fits
  set h' := splitBlock h y x s with hh
  have hbase : ∀ n, n ≠ x → n ≠ y → h'.base n = h.base n := fun n h1 h2 => by simp [hh, splitBlock, h1, h2]
  have hsize : ∀ n, n ≠ x → n ≠ y → h'.size n = h.size n := fun n h1 h2 => by simp [hh, splitBlock, h1, h2]
  have hbasey : h'.base y = h.base x := by simp [hh, splitBlock, Ne.symm hxy]
  have hsizey : h'.size y = s := by simp [hh, splitBlock, Ne.symm hxy]
  have hbasex : h'.base x = h.base x + s := by
    simp only [hh, splitBlock, update_self]
    exact Nat.mod_eq_of_lt (by omega)
  have hsizex : h'.size x = h.size x - s := by
    simp only [hh, splitBlock, update_self]
    omega
  have hfreeIff : ∀ n, n ≠ y → (Free h' (some y) n ↔ Free h none n) := by
    intro n hn
    simp [Free, hh, splitBlock, Ne.symm hn]
  have husedIff : ∀ n, n ∈ l1 ++ y :: x :: l2 ∧ Used h' (some y) n ↔ n ∈ l1 ++ x :: l2 ∧ Used h none n := by
    intro n
    by_cases hn : n = y
    · simp [hn, Used, hyout]
    · simp [hmem, hn, Used, hh, splitBlock, Ne.symm hn]
  have hplace : ∀ n, n ∈ l1 ++ x :: l2 → Used h none n → h'.base n = h.base n ∧ h'.size n = h.size n := by
    intro n hn hu
    have hnx : n ≠ x := by
      rintro rfl
      exact free_ne_used (hfree.symm.trans hu.1)
    have hny : n ≠ y := fun he => hyout (he ▸ hn)
    exact ⟨hbase n hnx hny, hsize n hnx hny⟩
  have hnodup := I.nodup
  have hperm : List.Perm (l1 ++ y :: x :: l2 ++ spare) (l1 ++ x :: l2 ++ y :: spare) := by
    have hright : List.Perm (l1 ++ x :: l2 ++ y :: spare) (y :: (l1 ++ x :: l2 ++ spare)) := perm_middle
    have hleft : List.Perm (l1 ++ y :: (x :: l2 ++ spare)) (y :: (l1 ++ (x :: l2 ++ spare))) := perm_middle
    simp only [append_assoc, cons_append] at hleft hright ⊢
    exact hleft.trans hright.symm
  have hfresh : ∀ n ∈ l1 ++ l2, n ≠ x := by
    have hchain := I.chain_nodup
    rw [nodup_middle, nodup_cons] at hchain
    rintro n hn rfl
    exact hchain.1 hn
  have hstay : ∀ n ∈ l1 ++ l2, h'.base n = h.base n ∧ h'.size n = h.size n := by
    intro n hn
    have hny : n ≠ y := by
      rintro rfl
      refine hyout ?_
      simp only [mem_append, mem_cons] at hn ⊢
      tauto
    exact ⟨hbase n (hfresh n hn) hny, hsize n (hfresh n hn) hny⟩
  refine ⟨{
    path := ?_
    tiles := ?_
    fits := I.fits
    listed := ⟨members, L.congr (fun j n hj => ?_) (fun j n hj => ?_) (fun z hz => ?_) rfl⟩
    flags := fun n hn => ?_
    ends := I.ends
    apart := fun n hn hf hf' => ?_
    heapFree := ?_
    spares := ?_
    nodup := hperm.nodup_iff.mpr hnodup
    blocks := fun n hn => I.blocks n (hperm.mem_iff.mp hn)
    limbo := fun n hn => ?_
    classes := fun n hn hf => ?_ }, alloc_congr husedIff hplace, hbasey, hsizey, hsize⟩
  · have hpath := path_insert I.path I.chain_ends.1 I.chain_ends.2 hyout hyne.2.1 hyne.2.2.1
    rw [addNext, addPrev, hback, update_comm hxy] at hpath
    exact hpath
  · refine tiles_row_edit [x] [y, x] I.tiles hstay ?_
    rintro c d ⟨-, ⟨hxc, -, -⟩, hd⟩
    change c + h.size x = d at hd
    refine ⟨?_, ⟨?_, rfl, ?_⟩, ?_, ⟨?_, rfl, ?_⟩, ?_⟩
    · rw [hsizey]; exact hpos
    · rw [hbasey, hxc]
    · rw [hsizey]; exact hmod
    · rw [hsizex]; omega
    · rw [hbasex, hsizey, hxc]
    · rw [hsizex]; omega
    · show c + h'.size y + h'.size x = d
      rw [hsizey, hsizex]
      omega
  · by_cases hn : n = y
    · simp [InFree, hn, Free, hyout]
    · simp [InFree, hmem, hn, hfreeIff n hn]
  · rw [InUsed, InUsed, ← and_assoc, ← and_assoc, husedIff]
    refine and_congr_right fun hu => ?_
    rw [(hplace n hu.1 hu.2).1]
  · have hzy : z ≠ y := by
      rintro rfl
      exact hz hyun
    exact ⟨update_of_ne hzy _ _, update_of_ne hzy _ _⟩
  · rcases (hmem n).mp hn with hn | rfl
    · exact .inr ((I.flags n hn).resolve_left (by simp))
    · exact .inl rfl
  · rcases (hmem n).mp hn with hn | rfl
    · have hny : n ≠ y := fun he => hyout (he ▸ hn)
      by_cases hnp : n = h.prevBlock x
      · refine hf'.2 ?_
        simp [hh, splitBlock, hnp]
      · have hlink : h'.nextBlock n = h.nextBlock n := by simp [hh, splitBlock, hnp, hny]
        rw [hlink] at hf'
        exact I.apart n hn ((hfreeIff n hny).mp hf) ⟨hf'.1, by simp⟩
    · exact hf.2 rfl
  · refine I.heapFree.trans (weight_edit [x] [y, x] (fun n hn => ?_) ?_)
    · have hny : some y ≠ some n := by
        rintro ⟨⟩
        refine hyout ?_
        simp only [mem_append, mem_cons] at hn ⊢
        tauto
      simp only [weight, hny, (hstay n hn).2, reduceCtorEq]
      rfl
    · have hx' : h'.flags x = memBlockFree := hfree
      simp [weight, hsizey, hsizex, hfree, hx']
      omega
  · obtain ⟨hfirst, hrest⟩ := I.spares
    refine chain_congr hrest fun z hz => update_of_ne ?_ _ _
    rintro rfl
    rcases mem_append.mp hz with hz | hz
    · exact (nodup_cons.mp (nodup_append.mp hnodup).2.1).1 hz
    · exact hyne.1 (mem_singleton.mp hz)
  · rw [hmem]
    exact .inr (Option.some.inj hn).symm
  · have hny : n ≠ y := fun he => hf.2 (he ▸ rfl)
    exact I.classes n (((hmem n).mp hn).resolve_right hny) ((hfreeIff n hny).mp hf)

theorem Listed.free_mem_block {members : Node → List Node} {F U : Nat → Node → Prop} (L : Listed h members F U)
    (hy : Unlisted F U y) : Listed (freeMemBlock h y) members F U := by
  refine L.congr (fun _ _ _ => .rfl) (fun _ _ _ => .rfl) (fun z hz => ?_) rfl
  have hzy : z ≠ y := by
    rintro rfl
    exact hz hy
  exact ⟨update_of_ne hzy _ _, update_of_ne hzy _ _⟩

theorem Inv.join (I : Inv h (l1 ++ x :: y :: l2) spare lim cls)
    (hnb : h'.nextBlock = update (update h.nextBlock x (h.nextBlock y)) y .null)
    (hpb : h'.prevBlock = update (update h.prevBlock (h.nextBlock y) x) y .null)
    (hbase : h'.base = update h.base y 0) (hsize : h'.size = update h.size x (h.size x + h.size y))
    (hflags : h'.flags = update h.flags y 0) (hheap : h'.heapSize = h.heapSize) (hhf : h'.heapFree = h.heapFree)
    (hlim : ∀ n, n ≠ y → (lim' = some n ↔ lim = some n)) (hlimy : lim' ≠ some y)
    (hx : h.flags x = memBlockFree ∨ lim = some x) (hy : h.flags y = memBlockFree ∨ lim = some y)
    (hnext : ¬ Free h lim (h.nextBlock y))
    (hlisted : ∃ members, Listed h' members (fun j n => InFree h (l1 ++ x :: y :: l2) lim cls j n ∧ n ≠ y)
      (InUsed h (l1 ++ x :: y :: l2) lim))
    (hspares : Chain h'.next h'.nextMemblock (y :: (spare ++ [Node.null]))) :
    Inv h' (l1 ++ x :: l2) (y :: spare) lim' cls ∧
      (∀ a s, Alloc h' (l1 ++ x :: l2) lim' a s ↔ Alloc h (l1 ++ x :: y :: l2) lim a s) := by
  have hchain := I.chain_nodup
  have hym : y ∈ l1 ++ x :: y :: l2 := by simp
  have hyne := I.mem_block_ne hym
  have hperm : List.Perm (l1 ++ x :: y :: l2) (y :: (l1 ++ x :: l2)) := by
    have hmid : List.Perm ((l1 ++ [x]) ++ y :: l2) (y :: ((l1 ++ [x]) ++ l2)) := perm_middle
    simpa using hmid
  have hyfresh : y ∉ l1 ++ x :: l2 := (nodup_cons.mp (hperm.nodup_iff.mp hchain)).1
  have hxfresh : x ∉ l1 ++ l2 := by
    have hrest := (nodup_cons.mp (hperm.nodup_iff.mp hchain)).2
    rw [nodup_middle] at hrest
    exact (nodup_cons.mp hrest).1
  have hmem : ∀ n, n ∈ l1 ++ x :: y :: l2 ↔ n = y ∨ n ∈ l1 ++ x :: l2 := fun n => by
    rw [hperm.mem_iff, mem_cons]
  have hxy : x ≠ y := fun he => hyfresh (by simp [← he])
  have hnexty : h.nextBlock y ≠ y := path_next_ne I.path I.chain_ends.1 hym
  have hprevy : h.prevBlock y = x := (path_append.mp I.path).2.2.1
  have hflag : ∀ n, n ≠ y → h'.flags n = h.flags n := fun n hn => by rw [hflags, update_of_ne hn]
  have hfreeIff : ∀ n, n ≠ y → (Free h' lim' n ↔ Free h lim n) := by
    intro n hn
    rw [Free, Free, hflag n hn, ne_eq, ne_eq, hlim n hn]
  have hnoused : ∀ n, n = x ∨ n = y → ¬ Used h lim n := by
    rintro n hn ⟨hu, hl⟩
    have hn' : h.flags n = memBlockFree ∨ lim = some n := by
      rcases hn with rfl | rfl
      · exact hx
      · exact hy
    rcases hn' with hf | hf
    · exact free_ne_used (hf.symm.trans hu)
    · exact hl hf
  have husedIff : ∀ n, n ∈ l1 ++ x :: l2 ∧ Used h' lim' n ↔ n ∈ l1 ++ x :: y :: l2 ∧ Used h lim n := by
    intro n
    by_cases hn : n = y
    · subst hn
      exact ⟨fun hm => absurd hm.1 hyfresh, fun hm => absurd hm.2 (hnoused n (.inr rfl))⟩
    · rw [hmem, Used, Used, hflag n hn, ne_eq, ne_eq, hlim n hn]
      simp [hn]
  have hplace : ∀ n, n ≠ x → n ≠ y → h'.base n = h.base n ∧ h'.size n = h.size n := by
    intro n hnx hny
    rw [hbase, hsize, update_of_ne hny, update_of_ne hnx]
    exact ⟨rfl, rfl⟩
  have hother : ∀ n ∈ l1 ++ l2, n ≠ x ∧ n ≠ y := by
    intro n hn
    refine ⟨fun he => hxfresh (he ▸ hn), ?_⟩
    rintro rfl
    refine hyfresh ?_
    simp only [mem_append, mem_cons] at hn ⊢
    tauto
  have hsizex : h'.size x = h.size x + h.size y := by rw [hsize, update_self]
  have hbasex : h'.base x = h.base x := by rw [hbase, update_of_ne hxy]
  have hlinks : ∀ n, n ≠ x → n ≠ y → h'.nextBlock n = h.nextBlock n := fun n hnx hny => by
    rw [hnb, update_of_ne hny, update_of_ne hnx]
  have hlinkx : h'.nextBlock x = h.nextBlock y := by rw [hnb, update_of_ne hxy, update_self]
  obtain ⟨members, L⟩ := hlisted
  refine ⟨{
    path := ?_
    tiles := ?_
    fits := by rw [hheap]; exact I.fits
    listed := ⟨members, L.congr (fun j n hj => ?_) (fun j n hj => ?_) (fun z _ => ⟨rfl, rfl⟩) rfl⟩
    flags := fun n hn => ?_
    ends := ?_
    apart := fun n hn hf => ?_
    heapFree := ?_
    spares := hspares
    nodup := ?_
    blocks := fun n hn => I.blocks n ?_
    limbo := fun n hn => ?_
    classes := fun n hn hf => ?_ }, alloc_congr husedIff fun n hn hu => ?_⟩
  · have hsplit : l1 ++ x :: y :: l2 = (l1 ++ [x]) ++ y :: l2 := by simp
    have hpath := path_remove (hsplit ▸ I.path) (hsplit ▸ I.chain_ends.1) (hsplit ▸ I.chain_ends.2)
    rw [append_assoc, singleton_append, removeNext, removePrev, hprevy] at hpath
    rw [hnb, hpb]
    refine path_congr hpath (fun z hz => update_of_ne ?_ _ _) fun z hz => update_of_ne ?_ _ _
    · rintro rfl
      exact hz.elim (fun he => hyne.2.1 he) hyfresh
    · rintro rfl
      exact hz.elim hyfresh fun he => hyne.2.2.1 he
  · rw [hheap]
    refine tiles_row_edit [x, y] [x] I.tiles (fun n hn => hplace n (hother n hn).1 (hother n hn).2) ?_
    rintro c d ⟨hpx, ⟨hxc, -, hmx⟩, hpy, ⟨-, -, hmy⟩, hd⟩
    change c + h.size x + h.size y = d at hd
    refine ⟨?_, ⟨?_, rfl, ?_⟩, ?_⟩
    · rw [hsizex]; omega
    · rw [hbasex, hxc]
    · rw [hsizex]; omega
    · show c + h'.size x = d
      rw [hsizex]
      omega
  · by_cases hn : n = y
    · subst hn
      simp [InFree, hyfresh]
    · simp [InFree, hmem, hn, hfreeIff n hn]
  · rw [InUsed, InUsed, ← and_assoc, ← and_assoc, husedIff]
    refine and_congr_right fun hu => ?_
    have hnx : n ≠ x := fun he => hnoused n (.inl he) hu.2
    have hny : n ≠ y := fun he => hnoused n (.inr he) hu.2
    rw [(hplace n hnx hny).1]
  · have hny : n ≠ y := fun he => hyfresh (he ▸ hn)
    rw [hlim n hny, hflag n hny]
    exact I.flags n ((hmem n).mpr (.inr hn))
  · rw [hflag _ (Ne.symm hyne.2.1), hflag _ (Ne.symm hyne.2.2.1)]
    exact I.ends
  · have hny : n ≠ y := fun he => hyfresh (he ▸ hn)
    by_cases hnx : n = x
    · rw [hnx, hlinkx, hfreeIff _ hnexty]
      exact hnext
    have hnn : h.nextBlock n ≠ y := by
      intro he
      have hback := path_prev_next I.path (.inr ((hmem n).mpr (.inr hn)))
      rw [he, hprevy] at hback
      exact hnx hback.symm
    rw [hlinks n hnx hny, hfreeIff _ hnn]
    exact I.apart n ((hmem n).mpr (.inr hn)) ((hfreeIff n hny).mp hf)
  · rw [hhf]
    refine I.heapFree.trans (weight_edit [x, y] [x] (fun n hn => ?_) ?_)
    · obtain ⟨hnx, hny⟩ := hother n hn
      simp [weight, hlim n hny, hflag n hny, (hplace n hnx hny).2]
    · simp [weight, hlim x hxy, hflag x hxy, hsizex, hx, hy]
  · have hmid : List.Perm (l1 ++ x :: l2 ++ y :: spare) (y :: (l1 ++ x :: l2 ++ spare)) := perm_middle
    rw [hmid.nodup_iff, ← cons_append]
    exact (hperm.append_right spare).nodup_iff.mp I.nodup
  · have hn' : n ∈ y :: (l1 ++ x :: l2) ++ spare := by
      simp only [mem_append, mem_cons] at hn ⊢
      tauto
    exact (hperm.append_right spare).mem_iff.mpr hn'
  · have hny : n ≠ y := fun he => hlimy (he ▸ hn)
    exact ((hmem n).mp (I.limbo n ((hlim n hny).mp hn))).resolve_left hny
  · have hny : n ≠ y := fun he => hyfresh (he ▸ hn)
    exact I.classes n ((hmem n).mpr (.inr hn)) ((hfreeIff n hny).mp hf)
  · exact hplace n (fun he => hnoused n (.inl he) hu) fun he => hnoused n (.inr he) hu

theorem Inv.size_add_lt (I : Inv h (l1 ++ x :: y :: l2) spare lim cls) : h.size x + h.size y < 2 ^ 32 := by
  have hsum := tiles_sum I.tiles
  have hfits := I.fits
  have hstart : heapStart = 0x80820000 := rfl
  simp only [map_append, map_cons, sum_append, sum_cons] at hsum
  omega

theorem Inv.spares_push (I : Inv h chain spare lim cls) (hy : y ∈ chain) {next : Node → Node}
    (hnext : Chain next h.nextMemblock (spare ++ [Node.null])) :
    Chain (update next y h.nextMemblock) y (y :: (spare ++ [Node.null])) := by
  refine chain_push hnext (update_self ..) fun z hz => update_of_ne ?_ _ _
  rintro rfl
  rcases mem_append.mp hz with hz | hz
  · exact I.spare_notMem hz hy
  · exact (I.mem_block_ne hy).1 (mem_singleton.mp hz)

theorem Inv.merge_next (I : Inv h chain spare (some x) cls) (S : Sized h chain cls) (hx : h.flags x ≠ memBlockFree) :
    ∃ chain' spare', Inv (mergeNext h x) chain' spare' (some x) cls ∧ Sized (mergeNext h x) chain' cls ∧
      (∀ a s, Alloc (mergeNext h x) chain' (some x) a s ↔ Alloc h chain (some x) a s) ∧
      (mergeNext h x).flags x ≠ memBlockFree ∧
      (mergeNext h x).flags ((mergeNext h x).nextBlock x) ≠ memBlockFree ∧
      (mergeNext h x).heapSize = h.heapSize := by
  by_cases hfree : h.flags (h.nextBlock x) = memBlockFree
  swap
  · have hsame : mergeNext h x = h := if_pos hfree
    rw [hsame]
    exact ⟨chain, spare, I, S, fun _ _ => .rfl, hx, hfree, rfl⟩
  have hxm := I.limbo x rfl
  have hym := I.free_next (.inr hxm) hfree
  -- The two blocks are neighbours in the row.
  obtain ⟨l1, rest, rfl⟩ := append_of_mem hxm
  obtain ⟨-, hrest⟩ := path_append.mp I.path
  cases rest with
  | nil =>
    have hend : h.nextBlock x = .block 2 := hrest.1
    exact absurd (hend ▸ hfree) I.ends.2
  | cons y l2 =>
  obtain rfl : h.nextBlock x = y := hrest.1
  set y := h.nextBlock x with hy
  have hyx : y ≠ x := path_next_ne I.path I.chain_ends.1 hxm
  have hlt := I.size_add_lt
  obtain ⟨members, L⟩ := I.listed
  have hyfree : Free h (some x) y := ⟨hfree, by simpa using Ne.symm hyx⟩
  have hyc := S y hym hfree
  obtain ⟨⟨members', L'⟩, hframe⟩ := L.remove_free (I.classes y hym hyfree) ⟨hym, hyfree, rfl⟩
  rw [hyc] at L' hframe
  have hspares := I.spares_push hym (I.spares_congr fun z hz _ => hframe z hz)
  have hun : Unlisted (fun j n => InFree h (l1 ++ x :: y :: l2) (some x) cls j n ∧ n ≠ y)
      (InUsed h (l1 ++ x :: y :: l2) (some x)) y :=
    ⟨(I.mem_block_ne hym).2.2.2, fun j _ => ⟨fun hf => hf.2 rfl, fun hu => free_ne_used (hfree.symm.trans hu.2.1.1)⟩⟩
  have hnext : ¬ Free h (some x) (h.nextBlock y) := I.apart y hym hyfree
  have heq : mergeNext h x = freeMemBlock (clearIfEmpty { listDel h y with
      nextBlock := update h.nextBlock x (h.nextBlock y)
      prevBlock := update h.prevBlock (h.nextBlock y) x
      size := update h.size x ((h.size x + h.size y) % 2 ^ 32) } (calcIndex (h.size y))) y :=
    if_neg (not_not.mpr hfree)
  rw [Nat.mod_eq_of_lt hlt, clear_if_empty_eq] at heq
  rw [clear_if_empty_eq] at L' hspares
  have hjoin : Inv (mergeNext h x) (l1 ++ x :: l2) (y :: spare) (some x) cls ∧
      ∀ a s, Alloc (mergeNext h x) (l1 ++ x :: l2) (some x) a s ↔ Alloc h (l1 ++ x :: y :: l2) (some x) a s := by
    rw [heq]
    exact I.join rfl rfl rfl rfl rfl rfl rfl (fun _ _ => .rfl) hyfree.2 (.inr rfl) (.inl hfree) hnext
      ⟨members', Listed.free_mem_block (L'.congr (fun _ _ _ => .rfl) (fun _ _ _ => .rfl) (fun _ _ => ⟨rfl, rfl⟩) rfl) hun⟩
      hspares
  have hflags : ∀ n, n ≠ y → (mergeNext h x).flags n = h.flags n := fun n hn => by
    rw [heq]
    exact update_of_ne hn _ _
  have hxflags : (mergeNext h x).flags x ≠ memBlockFree := by
    rw [hflags x (Ne.symm hyx)]
    exact hx
  refine ⟨_, _, hjoin.1, fun n hn hf => ?_, hjoin.2, hxflags, fun hf => ?_, ?_⟩
  · have hny : n ≠ y := by
      rintro rfl
      exact hjoin.1.spare_notMem mem_cons_self hn
    have hnx : n ≠ x := fun he => hxflags (he ▸ hf)
    have hsize : (mergeNext h x).size n = h.size n := by
      rw [heq]
      exact update_of_ne hnx _ _
    rw [hsize]
    refine S n ?_ ((hflags n hny).symm.trans hf)
    simp only [mem_append, mem_cons] at hn ⊢
    tauto
  · -- Behind the two blocks is a block that was not free before.
    have hlink : (mergeNext h x).nextBlock x = h.nextBlock y := by
      rw [heq]
      show update (update h.nextBlock x (h.nextBlock y)) y Node.null x = _
      rw [update_of_ne (Ne.symm hyx), update_self]
    have hyy : h.nextBlock y ≠ y := path_next_ne I.path I.chain_ends.1 hym
    rw [hlink] at hf
    have hyy' : h.nextBlock y ≠ x := fun he => hxflags (he ▸ hf)
    rw [hflags _ hyy] at hf
    exact hnext ⟨hf, by simpa using Ne.symm hyy'⟩
  · rw [heq]
    rfl

theorem Inv.merge_prev (I : Inv h chain spare (some x) cls) (S : Sized h chain cls)
    (hx : h.flags x ≠ memBlockFree) (hnext : h.flags (h.nextBlock x) ≠ memBlockFree)
    (hprev : h.flags (h.prevBlock x) = memBlockFree) :
    ∃ chain' spare' cls', Inv (mergePrev h x (h.prevBlock x)) chain' spare' none cls' ∧
      Sized (mergePrev h x (h.prevBlock x)) chain' cls' ∧
      (∀ a s, Alloc (mergePrev h x (h.prevBlock x)) chain' none a s ↔ Alloc h chain (some x) a s) ∧
      (mergePrev h x (h.prevBlock x)).heapSize = h.heapSize := by
  have hxm := I.limbo x rfl
  have hzm := I.free_prev hxm hprev
  have hback := path_next_prev I.path (.inl hxm)
  set z := h.prevBlock x with hz
  -- The two blocks are neighbours in the row.
  obtain ⟨l1, rest, rfl⟩ := append_of_mem hzm
  obtain ⟨-, hrest⟩ := path_append.mp I.path
  cases rest with
  | nil => exact absurd (hback.symm.trans hrest.1) (I.mem_block_ne hxm).2.2.1
  | cons y l2 =>
  obtain rfl : x = y := hback.symm.trans hrest.1
  have hzx : z ≠ x := fun he => hx (he ▸ hprev)
  have hlt := I.size_add_lt
  obtain ⟨members, L⟩ := I.listed
  have hun := I.unlisted (.inr rfl)
  let k : Space := { freeMemBlock { h with
      nextBlock := update h.nextBlock z (h.nextBlock x)
      prevBlock := update h.prevBlock (h.nextBlock x) z } x with
    size := update h.size z (h.size z + h.size x) }
  have heq : mergePrev h x z = moveBlock k z (calcIndex (h.size z)) (calcIndex (h.size z + h.size x)) := by
    unfold mergePrev
    simp only [freeMemBlock]
    rw [Nat.add_comm (h.size x), Nat.mod_eq_of_lt hlt]
    rfl
  have hlisted : Listed k members (fun j n => InFree h (l1 ++ z :: x :: l2) (some x) cls j n ∧ n ≠ x)
      (InUsed h (l1 ++ z :: x :: l2) (some x)) := by
    refine (L.free_mem_block hun).congr (fun j n _ => ?_) (fun _ _ _ => .rfl) (fun _ _ => ⟨rfl, rfl⟩) rfl
    refine ⟨fun hn => hn.1, fun hn => ⟨hn, ?_⟩⟩
    rintro rfl
    exact hn.2.1.2 rfl
  have hlim : ∀ n, n ≠ x → (none = some n ↔ some x = some n) := fun n hn => by simp [Ne.symm hn]
  obtain ⟨I', halloc⟩ : Inv k (l1 ++ z :: l2) (x :: spare) none cls ∧
      ∀ a s, Alloc k (l1 ++ z :: l2) none a s ↔ Alloc h (l1 ++ z :: x :: l2) (some x) a s :=
    I.join rfl rfl rfl rfl rfl rfl rfl hlim (by simp) (.inl hprev) (.inr rfl) (fun hf => hnext hf.1)
      ⟨members, hlisted⟩ (I.spares_push hxm I.spares)
  have hflags : ∀ n, n ≠ x → k.flags n = h.flags n := fun n hn => update_of_ne hn _ _
  have hzfree : Free k none z := ⟨(hflags z hzx).trans hprev, by simp⟩
  obtain ⟨I'', halloc', hsize, -, hfl, hheap, -⟩ := I'.move_block (by simp) hzfree (calcIndex_lt (h.size z + h.size x))
  rw [S z hzm hprev, ← heq] at I'' halloc' hsize hfl hheap
  refine ⟨_, _, _, I'', fun n hn hf => ?_, fun a s => (halloc' a s).trans (halloc a s), hheap⟩
  rw [hsize]
  by_cases hnz : n = z
  · rw [hnz, update_self, show k.size z = h.size z + h.size x from update_self ..]
  have hnx : n ≠ x := by
    rintro rfl
    exact I'.spare_notMem mem_cons_self hn
  rw [hfl, hflags n hnx] at hf
  rw [update_of_ne hnz, show k.size n = h.size n from update_of_ne hnz _ _]
  refine S n ?_ hf
  simp only [mem_append, mem_cons] at hn ⊢
  rcases hn with hn | hn | hn <;> simp [hn]

end Kolibri.KernelHeap
