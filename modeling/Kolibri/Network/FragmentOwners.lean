import Kolibri.Lib.Patches
import Kolibri.Network.Fragments

/-! # Who owns the buffers of fragments

Other code leaves those alone that `ipv4_input` has put into a chain.
-/

namespace Kolibri.FragmentOwners

open Memory Network Run Function List Nat

/-! ## The books -/

/-- A slot that was never filled has no chain. -/
def slotChain (net : Net) (i : Fin ipv4MaxFragments) : List (BitVec 32) :=
  if (net.fragments i).ptr = 0 then [] else chain net.mem walkFuel (net.fragments i).ptr

/-- `abandoned` were still allocated when the slot of their chain was filled anew. -/
structure Books where
  net : Net
  allocated : List (BitVec 32)
  taken : List (BitVec 32)
  doubleFrees : List (BitVec 32)
  abandoned : List (BitVec 32)

variable (s : Books)

def Books.free (b : BitVec 32) : Books :=
  if b ∈ s.allocated then { s with allocated := s.allocated.erase b, taken := s.taken.erase b }
  else { s with doubleFrees := b :: s.doubleFrees }

def freeSlot (net : Net) : Option (Fin ipv4MaxFragments) :=
  (List.finRange ipv4MaxFragments).find? fun i => (net.fragments i).ttl == 0

def replaced (p : Packet) : List (BitVec 32) :=
  if fragmentOffset s.net.mem p.edx = 0 then
    match freeSlot s.net with
    | none => []
    | some i => (slotChain s.net i).filter (· ∈ s.allocated)
  else []

/-- What a call does to the buffers. A packet that is passed on belongs to its handler. -/
def account (p : Packet) (net : Net) : Network.Outcome → Books
  | .invalidDevice | .dumped => Books.free { s with net } p.buffer
  | .passed .. => { s with net, allocated := s.allocated.erase p.buffer }
  | .queued => { s with net, taken := p.buffer :: s.taken, abandoned := s.abandoned ++ replaced s p }
  | .rebuilt r => (chain r.mem walkFuel r.first).foldl Books.free { s with net, taken := p.buffer :: s.taken }
  | .endless => { s with net }

def keepBooks : Event → Books × Unit
  | .receive p bytes =>
    let net := { s.net with mem := storeBytes s.net.mem p.edx bytes }
    let (net', outcome) := ipv4Input net p
    (account { s with net, allocated := p.buffer :: s.allocated } p net' outcome, ())
  | e => ({ s with net := (step s.net e).1 }, ())

/-! ## What is to hold -/

/-- There is a packet for which the slot is found. -/
def CanReturn (net : Net) (i : Fin ipv4MaxFragments) : Prop :=
  ∃ mem edx, ipv4FindFragmentSlot { net with mem } edx = some i

structure Owns (s : Books) : Prop where
  live : ∀ i, CanReturn s.net i → ∀ b ∈ slotChain s.net i, b ∈ s.allocated
  once : s.doubleFrees = []
  unique : ∀ b ∈ s.taken, ∃! i, b ∈ slotChain s.net i
  reuse : s.abandoned = []

structure Start (s : Books) : Prop where
  fragments : ∀ i, s.net.fragments i = ⟨0, 0, 0, 0, 0⟩
  allocated : s.allocated = []
  taken : s.taken = []
  doubleFrees : s.doubleFrees = []
  abandoned : s.abandoned = []

def InBuffer (b x : BitVec 32) : Prop := x.toNat / 2048 = b.toNat / 2048

/-- Other code does not write to buffers in a chain. -/
def Enabled : Event → Prop
  | .receive p bytes =>
    p.buffer.toNat % 2048 = 0 ∧ p.buffer ≠ 0 ∧ p.buffer ∉ s.allocated ∧
      ∀ k < max 12 bytes.length, InBuffer p.buffer (p.edx + BitVec.ofNat 32 k)
  | .other a bytes => ∀ k < bytes.length, ∀ b ∈ s.taken, ¬ InBuffer b (a + BitVec.ofNat 32 k)
  | .tick => True

/-- A first fragment takes a new slot, one in the middle finds one, and no last fragment does. -/
def FragmentGood (net : Net) (p : Packet) : Prop :=
  if load16 net.mem (p.edx + 6) &&& 0x20 ≠ 0 then
    if fragmentOffset net.mem p.edx = 0 then ∀ i, freeSlot net = some i → (net.fragments i).ptr = 0
    else ∀ i, ipv4FindFragmentSlot net p.edx = some i → (net.fragments i).ptr ≠ 0
  else load16 net.mem (p.edx + 6) &&& 0xff1f ≠ 0 → ipv4FindFragmentSlot net p.edx = none

def Good : Event → Prop
  | .receive p bytes =>
    let net := { s.net with mem := storeBytes s.net.mem p.edx bytes }
    accepts net p ≠ none → FragmentGood { net with mem := (ipv4Checksum net.mem p.edx).1 } p
  | _ => True

/-! ## Memory -/

section Memory

variable {mem mem' : Mem} {b c x : BitVec 32}

theorem inBuffer_entry (hb : b.toNat % 2048 = 0) {o : Nat} (ho : o + 4 ≤ 2048)
    (hx : Kolibri.Memory.Within (b + BitVec.ofNat 32 o) 4 x) : InBuffer b x := by
  unfold Kolibri.Memory.Within at hx
  unfold InBuffer
  bv_omega

theorem prevPtr_congr (hb : b.toNat % 2048 = 0) (h : ∀ x, InBuffer b x → mem' x = mem x) :
    prevPtr mem' b = prevPtr mem b :=
  load32_congr fun x hx => h x (@inBuffer_entry b x hb 24 (by decide) hx)

theorem nextPtr_congr (hb : b.toNat % 2048 = 0) (h : ∀ x, InBuffer b x → mem' x = mem x) :
    nextPtr mem' b = nextPtr mem b := by
  refine load32_congr fun x hx => h x (@inBuffer_entry b x hb 28 (by decide) ?_)
  rwa [BitVec.add_assoc] at hx

theorem not_inBuffer (hb : b.toNat % 2048 = 0) (hc : c.toNat % 2048 = 0) (hne : b ≠ c) (hx : InBuffer b x) :
    ¬ InBuffer c x := by
  unfold InBuffer at *
  bv_omega

theorem storeBytes_in_buffer {a : BitVec 32} {bs : List (BitVec 8)} (mem : Mem)
    (h : ∀ k < bs.length, InBuffer c (a + BitVec.ofNat 32 k)) (hx : ¬ InBuffer c x) : storeBytes mem a bs x = mem x := by
  refine storeBytes_of_ne mem fun k hk heq => hx ?_
  rw [heq]
  exact h k hk

theorem store32_in_buffer (mem : Mem) (w : BitVec 32) {o : Nat} (hc : c.toNat % 2048 = 0) (ho : o + 4 ≤ 2048)
    (hx : ¬ InBuffer c x) : store32 mem (c + BitVec.ofNat 32 o) w x = mem x :=
  store32_outside mem w fun hw => hx (inBuffer_entry hc ho hw)

theorem linkEntry_eq (mem : Mem) (prev buffer owner : BitVec 32) :
    linkEntry mem prev buffer owner =
      store32 (store32 (store32 mem (buffer + BitVec.ofNat 32 28) (-1)) (buffer + BitVec.ofNat 32 24) prev)
        (buffer + BitVec.ofNat 32 32) owner := by
  simp only [linkEntry, sizeofNetBuff, BitVec.add_assoc]
  rfl

theorem linkEntry_outside (mem : Mem) (prev owner : BitVec 32) (hc : c.toNat % 2048 = 0) (hx : ¬ InBuffer c x) :
    linkEntry mem prev c owner x = mem x := by
  rw [linkEntry_eq, store32_in_buffer _ _ hc (by decide) hx, store32_in_buffer _ _ hc (by decide) hx,
    store32_in_buffer _ _ hc (by decide) hx]

theorem load32_store32_apart (mem : Mem) (a w : BitVec 32) (h : Apart a x) : load32 (store32 mem a w) x = load32 mem x :=
  load32_congr fun _ hy => store32_outside mem w (h.symm.not_within hy)

theorem apart_offsets (a : BitVec 32) {i j : Nat} (hi : i < 2 ^ 16) (hj : j < 2 ^ 16) (h : i + 4 ≤ j ∨ j + 4 ≤ i) :
    Apart (a + BitVec.ofNat 32 i) (a + BitVec.ofNat 32 j) := by
  unfold Apart
  bv_omega

theorem prevPtr_linkEntry (mem : Mem) (prev buffer owner : BitVec 32) :
    prevPtr (linkEntry mem prev buffer owner) buffer = prev := by
  rw [linkEntry_eq]
  change load32 _ (buffer + BitVec.ofNat 32 24) = prev
  rw [load32_store32_apart _ _ _ (apart_offsets buffer (by decide) (by decide) (.inr (by decide))), load32_store32]

theorem nextPtr_linkEntry (mem : Mem) (prev buffer owner : BitVec 32) :
    nextPtr (linkEntry mem prev buffer owner) buffer = -1 := by
  rw [linkEntry_eq, nextPtr, BitVec.add_assoc]
  change load32 _ (buffer + BitVec.ofNat 32 28) = -1
  rw [load32_store32_apart _ _ _ (apart_offsets buffer (by decide) (by decide) (.inr (by decide))),
    load32_store32_apart _ _ _ (apart_offsets buffer (by decide) (by decide) (.inl (by decide))), load32_store32]

end Memory

/-! ## Chains -/

/-- The buffers are linked in both directions, from `prev` on. -/
def Chained (mem : Mem) : BitVec 32 → List (BitVec 32) → Prop
  | _, [] => True
  | prev, b :: l => prevPtr mem b = prev ∧ nextPtr mem b = l.headD (-1) ∧ Chained mem b l

variable {buffer edi : BitVec 32} {net net' : Net} {p : Packet} {s : Books}
  {chains : Fin ipv4MaxFragments → List (BitVec 32)}

section Chained

variable {mem mem' : Mem} {prev b : BitVec 32} {l : List (BitVec 32)}

theorem Chained.congr (h : Chained mem prev l) (hl : ∀ b ∈ l, b.toNat % 2048 = 0)
    (hmem : ∀ b ∈ l, ∀ x, InBuffer b x → mem' x = mem x) : Chained mem' prev l := by
  induction l generalizing prev with
  | nil => trivial
  | cons b l ih =>
    have hb := hl b mem_cons_self
    have hsame := hmem b mem_cons_self
    refine ⟨(prevPtr_congr hb hsame).trans h.1, (nextPtr_congr hb hsame).trans h.2.1, ih h.2.2 ?_ ?_⟩
    · exact fun c hc => hl c (mem_cons_of_mem _ hc)
    · exact fun c hc => hmem c (mem_cons_of_mem _ hc)

variable {n : Nat} {last : BitVec 32}

theorem Chained.chain_eq (h : Chained mem prev (b :: l)) (hl : ∀ c ∈ l, c ≠ -1) (hn : l.length < n) :
    chain mem n b = b :: l := by
  induction l generalizing prev b n with
  | nil =>
    obtain ⟨n, rfl⟩ := exists_eq_succ_of_ne_zero hn.ne'
    have hnext : nextPtr mem b = -1 := h.2.1
    rw [chain, if_pos hnext]
  | cons c l ih =>
    obtain ⟨n, rfl⟩ := exists_eq_succ_of_ne_zero (ne_of_gt (lt_of_le_of_lt (zero_le _) hn))
    have hnext : nextPtr mem b = c := h.2.1
    rw [chain, hnext, if_neg (hl c mem_cons_self),
      ih h.2.2 (fun d hd => hl d (mem_cons_of_mem _ hd)) (lt_of_succ_lt_succ hn)]

theorem Chained.find_last (h : Chained mem prev (b :: l)) (hl : ∀ c ∈ l, c ≠ -1) (hn : l.length < n) :
    findLastEntry mem n prev b = .last ((b :: l).getLast (cons_ne_nil b l)) := by
  induction l generalizing prev b n with
  | nil =>
    obtain ⟨n, rfl⟩ := exists_eq_succ_of_ne_zero hn.ne'
    have hnext : nextPtr mem b = -1 := h.2.1
    rw [findLastEntry, if_neg (not_not.mpr h.1.symm), if_pos hnext]
    rfl
  | cons c l ih =>
    obtain ⟨n, rfl⟩ := exists_eq_succ_of_ne_zero (ne_of_gt (lt_of_le_of_lt (zero_le _) hn))
    have hnext : nextPtr mem b = c := h.2.1
    rw [findLastEntry, if_neg (not_not.mpr h.1.symm), hnext, if_neg (hl c mem_cons_self),
      ih h.2.2 (fun d hd => hl d (mem_cons_of_mem _ hd)) (lt_of_succ_lt_succ hn), getLast_cons_cons]

theorem appendEntry_outside (mem : Mem) {x : BitVec 32} (owner : BitVec 32) (hlast : last.toNat % 2048 = 0)
    (hbuffer : buffer.toNat % 2048 = 0) (hx : ¬ InBuffer last x) (hx' : ¬ InBuffer buffer x) :
    appendEntry mem last buffer owner x = mem x := by
  rw [appendEntry, linkEntry_outside _ _ _ hbuffer hx', BitVec.add_assoc]
  exact store32_in_buffer mem buffer hlast (show 28 + 4 ≤ 2048 by decide) hx

theorem appendEntry_last (mem : Mem) (owner : BitVec 32) (hlast : last.toNat % 2048 = 0)
    (hbuffer : buffer.toNat % 2048 = 0) (hne : last ≠ buffer) :
    prevPtr (appendEntry mem last buffer owner) last = prevPtr mem last ∧
      nextPtr (appendEntry mem last buffer owner) last = buffer := by
  have hframe : ∀ x, InBuffer last x →
      appendEntry mem last buffer owner x = store32 mem (last + sizeofNetBuff + 4) buffer x :=
    fun x hx => linkEntry_outside _ _ _ hbuffer (not_inBuffer hlast hbuffer hne hx)
  rw [prevPtr_congr hlast hframe, nextPtr_congr hlast hframe]
  refine ⟨?_, load32_store32 ..⟩
  rw [prevPtr, BitVec.add_assoc]
  exact load32_store32_apart _ _ _ (@apart_offsets last 28 24 (by decide) (by decide) (.inr (by decide)))

theorem Chained.append {last buffer owner : BitVec 32} (h : Chained mem prev (l ++ [last]))
    (hl : ∀ c ∈ l ++ [last], c.toNat % 2048 = 0) (hnodup : (l ++ [last]).Nodup) (hbuffer : buffer.toNat % 2048 = 0)
    (hfresh : buffer ∉ l ++ [last]) : Chained (appendEntry mem last buffer owner) prev (l ++ [last, buffer]) := by
  have hlast := hl last (by simp)
  have hne : last ≠ buffer := by
    rintro rfl
    exact hfresh (by simp)
  induction l generalizing prev with
  | nil =>
    obtain ⟨hprev, hnext⟩ := appendEntry_last mem owner hlast hbuffer hne
    exact ⟨hprev.trans h.1, hnext, prevPtr_linkEntry .., nextPtr_linkEntry .., trivial⟩
  | cons c l ih =>
    obtain ⟨hc, hnodup⟩ := nodup_cons.mp hnodup
    have hcl : c ≠ last := by
      rintro rfl
      exact hc (by simp)
    have hcb : c ≠ buffer := by
      rintro rfl
      exact hfresh mem_cons_self
    have hblock := hl c mem_cons_self
    have hframe : ∀ x, InBuffer c x → appendEntry mem last buffer owner x = mem x := fun x hx =>
      appendEntry_outside mem owner hlast hbuffer (not_inBuffer hblock hlast hcl hx) (not_inBuffer hblock hbuffer hcb hx)
    refine ⟨(prevPtr_congr hblock hframe).trans h.1, (nextPtr_congr hblock hframe).trans (h.2.1.trans ?_), ?_⟩
    · cases l <;> rfl
    · exact ih h.2.2 (fun d hd => hl d (mem_cons_of_mem _ hd)) hnodup fun hmem =>
        hfresh (mem_cons_of_mem _ hmem)

theorem length_le_of_nodup (h : l.Nodup) : l.length ≤ 2 ^ 32 := by
  have hmap : (l.map BitVec.toNat).Nodup := h.map fun _ _ => BitVec.eq_of_toNat_eq
  have hsub : (l.map BitVec.toNat).toFinset ⊆ Finset.range (2 ^ 32) := by
    intro n hn
    obtain ⟨b, -, rfl⟩ := mem_map.mp (mem_toFinset.mp hn)
    exact Finset.mem_range.mpr b.isLt
  have hcard := Finset.card_le_card hsub
  rwa [toFinset_card_of_nodup hmap, length_map, Finset.card_range] at hcard

end Chained

/-! ## The invariant -/

/-- The chains of the slots, as lists. -/
structure Inv (s : Books) (chains : Fin ipv4MaxFragments → List (BitVec 32)) : Prop where
  ptr : ∀ i, (s.net.fragments i).ptr = (chains i).headD 0
  linked : ∀ i, Chained s.net.mem (-1) (chains i)
  nodup : ∀ i, (chains i).Nodup
  apart : ∀ i j b, b ∈ chains i → b ∈ chains j → i = j
  taken : ∀ b, b ∈ s.taken ↔ ∃ i, b ∈ chains i
  allocated : ∀ b ∈ s.taken, b ∈ s.allocated
  buffer : ∀ b ∈ s.taken, b.toNat % 2048 = 0 ∧ b ≠ 0
  doubleFrees : s.doubleFrees = []
  abandoned : s.abandoned = []

section Inv

variable {s : Books} {chains : Fin ipv4MaxFragments → List (BitVec 32)} {i : Fin ipv4MaxFragments}

theorem Inv.chain_buffer (h : Inv s chains) {b : BitVec 32} (hb : b ∈ chains i) :
    b.toNat % 2048 = 0 ∧ b ≠ 0 ∧ b ≠ -1 := by
  obtain ⟨hblock, hzero⟩ := h.buffer b ((h.taken b).mpr ⟨i, hb⟩)
  refine ⟨hblock, hzero, ?_⟩
  rintro rfl
  revert hblock
  decide

theorem Inv.length_lt (h : Inv s chains) (i : Fin ipv4MaxFragments) : (chains i).length < walkFuel :=
  lt_succ_of_le (length_le_of_nodup (h.nodup i))

theorem Inv.slotChain_eq (h : Inv s chains) (i : Fin ipv4MaxFragments) : slotChain s.net i = chains i := by
  have hptr := h.ptr i
  have hlinked := h.linked i
  have hlen := h.length_lt i
  rw [slotChain]
  cases hi : chains i with
  | nil =>
    rw [hi] at hptr
    exact if_pos hptr
  | cons b l =>
    have hmem : ∀ c ∈ b :: l, c ∈ chains i := fun c hc => by rwa [hi]
    rw [hi] at hptr hlinked hlen
    replace hptr : (s.net.fragments i).ptr = b := hptr
    rw [hptr, if_neg (h.chain_buffer (hmem b mem_cons_self)).2.1]
    refine hlinked.chain_eq (fun c hc => (h.chain_buffer (hmem c (mem_cons_of_mem _ hc))).2.2) ?_
    rw [length_cons] at hlen
    omega

theorem Inv.owns (h : Inv s chains) : Owns s where
  live i _ b hb := by
    rw [h.slotChain_eq] at hb
    exact h.allocated b ((h.taken b).mpr ⟨i, hb⟩)
  once := h.doubleFrees
  unique b hb := by
    obtain ⟨i, hi⟩ := (h.taken b).mp hb
    simp only [h.slotChain_eq]
    exact ⟨i, hi, fun j hj => h.apart j i b hj hi⟩
  reuse := h.abandoned

theorem Start.inv (h : Start s) : Inv s fun _ => [] where
  ptr i := by rw [h.fragments]; rfl
  linked _ := trivial
  nodup _ := nodup_nil
  apart _ _ _ hb := by cases hb
  taken b := by simp [h.taken]
  allocated b hb := by simp [h.taken] at hb
  buffer b hb := by simp [h.taken] at hb
  doubleFrees := h.doubleFrees
  abandoned := h.abandoned

theorem Inv.frame (h : Inv s chains) (hptr : ∀ i, (net.fragments i).ptr = (s.net.fragments i).ptr)
    (hmem : ∀ b ∈ s.taken, ∀ x, InBuffer b x → net.mem x = s.net.mem x) : Inv { s with net } chains where
  ptr i := (hptr i).trans (h.ptr i)
  linked i := (h.linked i).congr (fun _ hb => (h.chain_buffer hb).1) fun b hb => hmem b ((h.taken b).mpr ⟨i, hb⟩)
  nodup := h.nodup
  apart := h.apart
  taken := h.taken
  allocated := h.allocated
  buffer := h.buffer
  doubleFrees := h.doubleFrees
  abandoned := h.abandoned

/-- A call that changes nothing but the packet in `buffer`. -/
structure OnlyIn (buffer : BitVec 32) (net net' : Net) : Prop where
  ptr : ∀ i, (net'.fragments i).ptr = (net.fragments i).ptr
  mem : ∀ x, ¬ InBuffer buffer x → net'.mem x = net.mem x

theorem Inv.notMem_taken (h : Inv s chains) (hfresh : buffer ∉ s.allocated) : buffer ∉ s.taken :=
  fun hmem => hfresh (h.allocated buffer hmem)

theorem Inv.onlyIn (h : Inv s chains) (hblock : buffer.toNat % 2048 = 0) (hfresh : buffer ∉ s.allocated)
    (hnet : OnlyIn buffer s.net net) : Inv { s with net } chains := by
  refine h.frame hnet.ptr fun b hb x hx => hnet.mem x (not_inBuffer (h.buffer b hb).1 hblock ?_ hx)
  rintro rfl
  exact h.notMem_taken hfresh hb

theorem account_dropped {outcome : Network.Outcome} (htaken : p.buffer ∉ s.taken)
    (houtcome : outcome = .invalidDevice ∨ outcome = .dumped ∨ ∃ h esi ecx, outcome = .passed h esi ecx) :
    account { s with net, allocated := p.buffer :: s.allocated } p net' outcome = { s with net := net' } := by
  rcases houtcome with rfl | rfl | ⟨h, esi, ecx, rfl⟩
  · simp [account, Books.free, erase_of_not_mem htaken]
  · simp [account, Books.free, erase_of_not_mem htaken]
  · simp [account]

theorem Inv.take (h : Inv s chains) (hblock : buffer.toNat % 2048 = 0) (hzero : buffer ≠ 0)
    (hfresh : buffer ∉ s.allocated) (hptr : (net.fragments i).ptr = (chains i ++ [buffer]).headD 0)
    (hothers : ∀ j ≠ i, (net.fragments j).ptr = (s.net.fragments j).ptr)
    (hlinked : Chained net.mem (-1) (chains i ++ [buffer]))
    (hmem : ∀ j ≠ i, ∀ b ∈ chains j, ∀ x, InBuffer b x → net.mem x = s.net.mem x) {allocated : List (BitVec 32)}
    (hallocated : buffer ∈ allocated ∧ ∀ b ∈ s.allocated, b ∈ allocated) :
    Inv { s with net, allocated, taken := buffer :: s.taken } (update chains i (chains i ++ [buffer])) := by
  have hnew : ∀ j, buffer ∉ chains j := fun j hj => h.notMem_taken hfresh ((h.taken buffer).mpr ⟨j, hj⟩)
  have hcases : ∀ j b, b ∈ update chains i (chains i ++ [buffer]) j ↔ b ∈ chains j ∨ j = i ∧ b = buffer := by
    intro j b
    by_cases hj : j = i
    · simp [hj]
    · simp [hj]
  refine ⟨fun j => ?_, fun j => ?_, fun j => ?_, fun j k b hj hk => ?_, fun b => ?_, fun b hb => ?_, fun b hb => ?_,
    h.doubleFrees, h.abandoned⟩
  · by_cases hj : j = i
    · rw [hj, update_self]
      exact hptr
    · rw [update_of_ne hj]
      exact (hothers j hj).trans (h.ptr j)
  · by_cases hj : j = i
    · rw [hj, update_self]
      exact hlinked
    · rw [update_of_ne hj]
      exact (h.linked j).congr (fun b hb => (h.chain_buffer hb).1) (hmem j hj)
  · by_cases hj : j = i
    · rw [hj, update_self]
      exact (perm_append_singleton _ _).nodup_iff.mpr (nodup_cons.mpr ⟨hnew i, h.nodup i⟩)
    · rw [update_of_ne hj]
      exact h.nodup j
  · rw [hcases] at hj hk
    rcases hj with hj | ⟨rfl, rfl⟩ <;> rcases hk with hk | ⟨rfl, hb⟩
    · exact h.apart j k b hj hk
    · exact absurd (hb ▸ hj) (hnew j)
    · exact absurd hk (hnew k)
    · rfl
  · simp only [mem_cons, h.taken, hcases]
    constructor
    · rintro (rfl | ⟨j, hj⟩)
      · exact ⟨i, .inr ⟨rfl, rfl⟩⟩
      · exact ⟨j, .inl hj⟩
    · rintro ⟨j, hj | ⟨-, rfl⟩⟩
      · exact .inr ⟨j, hj⟩
      · exact .inl rfl
  · rcases mem_cons.mp hb with rfl | hb
    · exact hallocated.1
    · exact hallocated.2 b (h.allocated b hb)
  · rcases mem_cons.mp hb with rfl | hb
    · exact ⟨hblock, hzero⟩
    · exact h.buffer b hb

/-! ## Fragments -/

theorem Inv.first (h : Inv s chains) (hblock : p.buffer.toNat % 2048 = 0) (hzero : p.buffer ≠ 0)
    (hfresh : p.buffer ∉ s.allocated) (hgood : ∀ i, freeSlot s.net = some i → (s.net.fragments i).ptr = 0) :
    isFirstFragment s.net p edi = dump s.net edi ∨ (isFirstFragment s.net p edi).2 = .queued ∧ ∃ chains', Inv { s with
          net := (isFirstFragment s.net p edi).1
          allocated := p.buffer :: s.allocated
          taken := p.buffer :: s.taken } chains' := by
  cases hfind : freeSlot s.net with
  | none =>
    left
    rw [freeSlot] at hfind
    rw [isFirstFragment, hfind]
  | some i =>
    right
    have hempty : chains i = [] := by
      have hptr := h.ptr i
      rw [hgood i hfind] at hptr
      cases hi : chains i with
      | nil => rfl
      | cons b l =>
        exact absurd hptr.symm (h.chain_buffer (by rw [hi]; exact mem_cons_self)).2.1
    rw [freeSlot] at hfind
    rw [isFirstFragment, hfind]
    refine ⟨rfl, _, h.take (i := i) hblock hzero hfresh ?_ ?_ ?_ ?_ ⟨mem_cons_self, fun _ => mem_cons_of_mem _⟩⟩
    · simp [hempty]
    · intro j hj
      simp [hj]
    · rw [hempty]
      exact ⟨prevPtr_linkEntry .., nextPtr_linkEntry .., trivial⟩
    · intro j _ b hb x hx
      refine linkEntry_outside _ _ _ hblock (not_inBuffer (h.chain_buffer hb).1 hblock ?_ hx)
      rintro rfl
      exact h.notMem_taken hfresh ((h.taken _).mpr ⟨j, hb⟩)

theorem Inv.middle (h : Inv s chains) (hblock : p.buffer.toNat % 2048 = 0) (hzero : p.buffer ≠ 0)
    (hfresh : p.buffer ∉ s.allocated) (hptr : (s.net.fragments i).ptr ≠ 0) :
    ∃ last, findLastEntry s.net.mem walkFuel (-1) (s.net.fragments i).ptr = .last last ∧ ∃ chains', Inv { s with
        net := { s.net with
          fragments := update s.net.fragments i { s.net.fragments i with ttl := 15 }
          mem := appendEntry s.net.mem last p.buffer p.ebx }
        allocated := p.buffer :: s.allocated
        taken := p.buffer :: s.taken } chains' := by
  have hhead := h.ptr i
  have hlinked := h.linked i
  have hlen := h.length_lt i
  have hnodup := h.nodup i
  have hbuffers : ∀ c ∈ chains i, c.toNat % 2048 = 0 ∧ c ≠ 0 ∧ c ≠ -1 := fun c hc => h.chain_buffer hc
  have hnew : ∀ j, p.buffer ∉ chains j := fun j hj => h.notMem_taken hfresh ((h.taken _).mpr ⟨j, hj⟩)
  have hne : chains i ≠ [] := by
    intro hnil
    rw [hnil] at hhead
    exact hptr hhead
  refine ⟨(chains i).getLast hne, ?_, _, h.take (i := i) hblock hzero hfresh ?_ ?_ ?_ ?_
    ⟨mem_cons_self, fun _ => mem_cons_of_mem _⟩⟩
  · generalize chains i = l at *
    cases l with
    | nil => exact absurd rfl hne
    | cons b l =>
      replace hhead : (s.net.fragments i).ptr = b := hhead
      rw [hhead]
      rw [length_cons] at hlen
      exact hlinked.find_last (fun c hc => (hbuffers c (mem_cons_of_mem _ hc)).2.2) (by omega)
  · dsimp only
    rw [update_self, hhead]
    cases hi : chains i with
    | nil => exact absurd hi hne
    | cons b l => rfl
  · intro j hj
    simp [hj]
  · have hsplit := dropLast_append_getLast hne
    rw [← hsplit] at hlinked hnodup
    have happend := @Chained.append s.net.mem (-1) (chains i).dropLast ((chains i).getLast hne) p.buffer p.ebx hlinked
      (by rw [hsplit]; exact fun c hc => (hbuffers c hc).1) hnodup hblock (by rw [hsplit]; exact hnew i)
    rwa [← singleton_append, ← append_assoc, hsplit] at happend
  · intro j hj b hb x hx
    have hb' := (h.chain_buffer hb).1
    have hlast := getLast_mem hne
    refine appendEntry_outside _ _ (hbuffers _ hlast).1 hblock (not_inBuffer hb' (hbuffers _ hlast).1 ?_ hx)
      (not_inBuffer hb' hblock ?_ hx)
    · rintro rfl
      exact hj (h.apart j i _ hb hlast)
    · rintro rfl
      exact hnew j hb

theorem Inv.fragments (h : Inv s chains) (edi : BitVec 32) (hblock : p.buffer.toNat % 2048 = 0) (hzero : p.buffer ≠ 0)
    (hfresh : p.buffer ∉ s.allocated) (hmore : load16 s.net.mem (p.edx + 6) &&& 0x20 ≠ 0)
    (hgood : FragmentGood s.net p) :
    hasFragments s.net p edi = dump s.net edi ∨ (hasFragments s.net p edi).2 = .queued ∧ ∃ chains', Inv { s with
          net := (hasFragments s.net p edi).1
          allocated := p.buffer :: s.allocated
          taken := p.buffer :: s.taken } chains' := by
  rw [FragmentGood, if_pos hmore] at hgood
  unfold hasFragments
  split_ifs at hgood ⊢ with hoffset
  · exact h.first hblock hzero hfresh hgood
  cases hfind : ipv4FindFragmentSlot s.net p.edx with
  | none => exact .inl rfl
  | some i =>
    obtain ⟨last, hwalk, hinv⟩ := h.middle hblock hzero hfresh (hgood i hfind)
    right
    dsimp only
    rw [update_self]
    rw [hwalk]
    exact ⟨rfl, hinv⟩

end Inv

/-! ## Steps and runs -/

theorem FragmentGood.congr (h : FragmentGood net p) (hmem : net'.mem = net.mem)
    (hfragments : net'.fragments = net.fragments) : FragmentGood net' p := by
  unfold FragmentGood freeSlot ipv4FindFragmentSlot at *
  rwa [hmem, hfragments]

theorem OnlyIn.dump (h : OnlyIn buffer net net') :
    OnlyIn buffer net (Network.dump net' edi).1 := ⟨h.ptr, h.mem⟩

theorem OnlyIn.handleIt {edx : BitVec 32} (h : OnlyIn buffer net net') :
    OnlyIn buffer net (Network.handleIt net' edx edi).1 := by
  unfold Network.handleIt
  split
  · exact h.dump
  · exact h
  · exact h

theorem replaced_eq_nil (hmore : load16 net.mem (p.edx + 6) &&& 0x20 ≠ 0)
    (hfragments : net.fragments = s.net.fragments) (hmem : load16 net.mem (p.edx + 6) = load16 s.net.mem (p.edx + 6))
    (hgood : FragmentGood net p) : replaced s p = [] := by
  rw [FragmentGood, if_pos hmore, fragmentOffset, hmem, freeSlot, hfragments] at hgood
  rw [replaced, fragmentOffset]
  split_ifs at hgood ⊢ with hoffset
  · cases hfind : freeSlot s.net with
    | none => rfl
    | some i =>
      have hptr : (s.net.fragments i).ptr = 0 := hgood i hfind
      dsimp only
      rw [slotChain, if_pos hptr, filter_nil]
  · rfl

theorem account_accepted (h : Inv s chains) (hblock : p.buffer.toNat % 2048 = 0) (hzero : p.buffer ≠ 0)
    (hfresh : p.buffer ∉ s.allocated) (honly : OnlyIn p.buffer s.net net')
    (hfragments : net'.fragments = net.fragments) (hflags : load16 net'.mem (p.edx + 6) = load16 net.mem (p.edx + 6))
    (hgood : FragmentGood net' p) (edi : BitVec 32) {r : Net × Network.Outcome}
    (hr : r = if load16 net'.mem (p.edx + 6) &&& 0x20 ≠ 0 then hasFragments net' p edi
      else if load16 net'.mem (p.edx + 6) &&& 0xff1f ≠ 0 then isLastFragment net' p edi
      else handleIt net' p.edx edi) :
    ∃ chains', Inv (account { s with net, allocated := p.buffer :: s.allocated } p r.1 r.2) chains' := by
  have htaken := h.notMem_taken hfresh
  have hdrop : ∀ net'' outcome, OnlyIn p.buffer s.net net'' → outcome = .dumped ∨
      (∃ h esi ecx, outcome = .passed h esi ecx) →
      ∃ chains', Inv (account { s with net, allocated := p.buffer :: s.allocated } p net'' outcome) chains' := by
    intro net'' outcome honly' houtcome
    rw [account_dropped htaken (.inr houtcome)]
    exact ⟨chains, h.onlyIn hblock hfresh honly'⟩
  subst hr
  split_ifs with hmore hlast
  · have hreplaced : replaced { s with net, allocated := p.buffer :: s.allocated } p = [] :=
      replaced_eq_nil hmore hfragments hflags hgood
    rcases (h.onlyIn hblock hfresh honly).fragments edi hblock hzero hfresh hmore hgood with
      hdump | ⟨hqueued, chains', hinv⟩
    · change hasFragments net' p edi = _ at hdump
      rw [hdump]
      exact hdrop _ _ honly.dump (.inl rfl)
    · change (hasFragments net' p edi).2 = _ at hqueued
      refine ⟨chains', ?_⟩
      rw [hqueued, account, hreplaced, append_nil]
      exact hinv
  · rw [FragmentGood, if_neg hmore] at hgood
    rw [isLastFragment, hgood hlast]
    exact hdrop _ _ honly.dump (.inl rfl)
  · exact hdrop _ _ honly.handleIt (handle_it_cases ..)

theorem keepBooks_receive (h : Inv s chains) {bytes : List (BitVec 8)} (hok : Enabled s (.receive p bytes))
    (hgood : Good s (.receive p bytes)) : ∃ chains', Inv (keepBooks s (.receive p bytes)).1 chains' := by
  obtain ⟨hblock, hzero, hfresh, hinside⟩ := hok
  have htaken := h.notMem_taken hfresh
  have hgood : ∀ net, ({ s.net with mem := storeBytes s.net.mem p.edx bytes } : Net) = net →
      accepts net p ≠ none → FragmentGood { net with mem := (ipv4Checksum net.mem p.edx).1 } p := by
    rintro _ rfl
    exact hgood
  simp only [keepBooks]
  generalize hnet : ({ s.net with mem := storeBytes s.net.mem p.edx bytes } : Net) = net
  specialize hgood net hnet
  have honly : OnlyIn p.buffer s.net net := by
    rw [← hnet]
    refine ⟨fun _ => rfl, fun x hx => storeBytes_in_buffer _ (fun k hk => hinside k (by omega)) hx⟩
  -- What is dropped leaves the books as they were.
  have hdrop : ∀ net' outcome, OnlyIn p.buffer s.net net' →
      outcome = .invalidDevice ∨ outcome = .dumped ∨ (∃ h esi ecx, outcome = .passed h esi ecx) →
      ∃ chains', Inv (account { s with net, allocated := p.buffer :: s.allocated } p net' outcome) chains' := by
    intro net' outcome honly' houtcome
    rw [account_dropped htaken houtcome]
    exact ⟨chains, h.onlyIn hblock hfresh honly'⟩
  unfold ipv4Input accepts at *
  cases hdevice : netPtrToNum4 net p.ebx with
  | none => exact hdrop net _ honly (.inl rfl)
  | some edi =>
    simp only [hdevice] at hgood
    obtain ⟨-, -, hflags, -, haddress⟩ := checksum_fields net.mem p.edx
    have honly1 : OnlyIn p.buffer s.net { net with mem := (ipv4Checksum net.mem p.edx).1 } := by
      refine ⟨honly.ptr, fun x hx => ?_⟩
      rw [← honly.mem x hx]
      refine storeBytes_in_buffer _ (fun k hk => ?_) hx
      rw [length_cons, length_singleton] at hk
      have hfield := hinside (10 + k) (by omega)
      rwa [BitVec.ofNat_add, ← BitVec.add_assoc] at hfield
    rcases hcheck : ipv4Checksum net.mem p.edx with ⟨mem, ok⟩
    rw [hcheck] at hgood honly1 hflags haddress
    dsimp only at hgood honly1 hflags haddress ⊢
    have hip : ipOk { net with mem } edi (load32 mem (p.edx + 16)) = ipOk net edi (load32 net.mem (p.edx + 16)) := by
      rw [haddress]
      rfl
    rw [hip]
    by_cases hok : (!ok) = true
    · rw [if_pos hok]
      exact hdrop _ _ honly1.dump (.inr (.inl rfl))
    by_cases hip' : (!ipOk net edi (load32 net.mem (p.edx + 16))) = true
    · rw [if_neg hok, if_pos hip']
      exact hdrop _ _ honly1.dump (.inr (.inl rfl))
    rw [if_neg hok, if_neg hip']
    simp only [Bool.not_eq_true, Bool.not_eq_false'] at hok hip'
    simp only [hok, hip', Bool.and_self, if_true, ne_eq, reduceCtorEq, not_false_eq_true, forall_const] at hgood
    -- The counters do not matter.
    have hgood2 : FragmentGood { net with mem, packetsRx := update net.packetsRx edi (net.packetsRx edi + 1) } p :=
      hgood.congr rfl rfl
    have honly2 : OnlyIn p.buffer s.net
        { net with mem, packetsRx := update net.packetsRx edi (net.packetsRx edi + 1) } := ⟨honly1.ptr, honly1.mem⟩
    have hkept : ({ net with mem, packetsRx := update net.packetsRx edi (net.packetsRx edi + 1) } : Net).fragments =
        net.fragments := rfl
    exact account_accepted h hblock hzero hfresh honly2 hkept hflags hgood2 edi rfl

theorem keepBooks_inv (h : Inv s chains) {e : Event} (hok : Enabled s e) (hgood : Good s e) :
    ∃ chains', Inv (keepBooks s e).1 chains' := by
  cases e with
  | receive p bytes => exact keepBooks_receive h hok hgood
  | other a bytes =>
    refine ⟨chains, h.frame (fun _ => rfl) fun b hb x hx => storeBytes_of_ne _ fun k hk heq => hok k hk b hb ?_⟩
    rwa [← heq]
  | tick =>
    refine ⟨chains, h.frame (fun i => ?_) fun _ _ _ _ => rfl⟩
    change (if (s.net.fragments i).ttl = 0 then s.net.fragments i else _).ptr = _
    split_ifs <;> rfl

/-- Each chain has a slot of its own and none is completed. -/
theorem fragment_chains_owned (s : Books) (hstart : Start s) (es : List Event) (hok : Allowed keepBooks Enabled s es)
    (hgood : Allowed keepBooks Good s es) : ∀ pre, pre <+: es → Owns (final keepBooks s pre) := by
  rintro pre ⟨post, rfl⟩
  have hboth := allowed_and (allowed_append.mp hok).1 (allowed_append.mp hgood).1
  obtain ⟨chains, hinv⟩ := @final_inv _ _ _ keepBooks _ (fun s => ∃ chains, Inv s chains)
    (fun s e ⟨chains, h⟩ he => keepBooks_inv h he.1 he.2) s pre ⟨_, hstart.inv⟩ hboth
  exact hinv.owns

def noBooks : Books := ⟨oneDevice, [], [], [], []⟩

def twoFragments : List Event := threeFragments.take 2 ++ [.tick]

theorem fragment_chains_owned_two : Start noBooks ∧ Owns (final keepBooks noBooks twoFragments) := by
  have hstart : Start noBooks := ⟨fun _ => rfl, rfl, rfl, rfl, rfl⟩
  refine ⟨hstart, fragment_chains_owned noBooks hstart twoFragments ?_ ?_ _ prefix_rfl⟩
  · refine ⟨?_, ?_, trivial, trivial⟩
    · unfold Enabled InBuffer
      decide +kernel
    · unfold Enabled InBuffer
      decide +kernel
  refine ⟨fun _ => ?_, fun _ => ?_, trivial, trivial⟩
  · unfold FragmentGood
    decide +kernel
  · unfold FragmentGood
    decide +kernel

/-- The last fragment has all buffers freed, and the slot still leads to them. -/
theorem rebuilt_chain_dangles : ¬ ∀ s, Start s → ∀ es, Allowed keepBooks Enabled s es →
    ∀ pre, pre <+: es → Owns (final keepBooks s pre) := by
  intro h
  have howns := h noBooks ⟨fun _ => rfl, rfl, rfl, rfl, rfl⟩ threeFragments ?_ _ prefix_rfl
  · have hfound : CanReturn (final keepBooks noBooks threeFragments).net ⟨0, by decide⟩ :=
      ⟨(final keepBooks noBooks threeFragments).net.mem, entryHeader 0x80202000, by decide +kernel⟩
    have hlive := howns.live _ hfound 0x80200000 (by decide +kernel)
    revert hlive
    decide +kernel
  · refine ⟨?_, ?_, ?_, trivial⟩ <;> unfold Enabled InBuffer <;> decide +kernel

end Kolibri.FragmentOwners
