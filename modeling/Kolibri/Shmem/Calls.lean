import Kolibri.Shmem.Smaps

/-!
# `shmem_open` and `shmem_close`
-/

namespace Kolibri.Shmem

open Bitmap Paging UserHeap Tiling Ownership Function

variable {process : Nat → Nat} {w : World} {ls : Nat → List (Kind × Nat)} {reg : Nat → Nat → Nat} {p : Nat}

/-! ## Mapping a region -/

variable {ownerAccess edx : BitVec 32} {r : Smem} {slot : Nat}

theorem map_flags (access : BitVec 32) (howner : ownerAccess = 0 ∨ ownerAccess = shmWrite) :
    let edx := (((access &&& shmAccessMask) ||| ownerAccess) <<< 1) ||| (pgShared ||| pgUr)
    edx.toNat = 0x205 ∨ edx.toNat = 0x207 := by
  have hmask : (access &&& shmAccessMask).toNat = access.toNat % 4 := by
    rw [BitVec.toNat_and]
    exact Nat.and_two_pow_sub_one_eq_mod access.toNat 2
  have hcases : access &&& shmAccessMask = 0 ∨ access &&& shmAccessMask = 1 ∨ access &&& shmAccessMask = 2 ∨
      access &&& shmAccessMask = 3 := by
    rcases (by omega : access.toNat % 4 = 0 ∨ access.toNat % 4 = 1 ∨ access.toNat % 4 = 2 ∨ access.toNat % 4 = 3)
      with h | h | h | h <;> rw [h] at hmask
    · exact .inl (BitVec.eq_of_toNat_eq hmask)
    · exact .inr (.inl (BitVec.eq_of_toNat_eq hmask))
    · exact .inr (.inr (.inl (BitVec.eq_of_toNat_eq hmask)))
    · exact .inr (.inr (.inr (BitVec.eq_of_toNat_eq hmask)))
  rcases hcases with h | h | h | h <;> rcases howner with rfl | rfl <;> rw [h] <;> decide

theorem shared_entry (hedx : edx.toNat = 0x205 ∨ edx.toNat = 0x207) (e : Nat) :
    let entry := pageAlign e ||| edx.toNat
    Present entry ∧ Shared entry ∧ entry &&& memBlockUsed = 0 ∧ pageOf entry = pageOf e := by
  intro entry
  have hlt : edx.toNat < 4096 := by omega
  have hentry : entry = 4096 * (e / 4096) + edx.toNat := by
    rw [Nat.mul_comm 4096]
    exact or_flags (Nat.mul_mod_left ..) hlt
  have hbit := and_flag (e / 4096) hlt
  rw [← hentry] at hbit
  unfold Present Shared
  rw [show (1 : Nat) = 2 ^ 0 from rfl, show 0x200 = 2 ^ 9 from rfl, show memBlockUsed = 2 ^ 3 from rfl,
    hbit 0 (by decide), hbit 9 (by decide), hbit 3 (by decide)]
  refine ⟨?_, ?_, ?_, by unfold pageOf; omega⟩
  all_goals rcases hedx with h | h <;> rw [h] <;> decide

def withRegion (reg : Nat → Nat → Nat) (p x n r : Nat) : Nat → Nat → Nat := fun p' i =>
  if p' = p ∧ x < i ∧ i < x + n then r else reg p' i

/-- The source of a new entry is the page of the region. -/
def regionPlace (p x n r : Nat) : Place → Place
  | .user p' i => if p' = p ∧ x < i ∧ i < x + n then .kernel r (i - (x + 1)) else .user p' i
  | .kernel r' j => .kernel r' j

theorem Inv.map_region {m : Smap} {x : Nat} (hI : Inv process w ls reg) (hr : r ∈ w.shmemList) (hm : m ∈ w.objects)
    (hparent : m.parent = r.base) (hslot : process m.slot = p) (hbase : m.base.toNat / 4096 = x + 1)
    (hx : Live ((w.heap p).heapBase / 4096) (ls p) x .used (r.size / 4096 + 1))
    (hedx : edx.toNat = 0x205 ∨ edx.toNat = 0x207) :
    Inv process (w.store p { w.heap p with
      tabs := mapRegion (w.heap p).tabs (x + 1) (r.base / 4096) (r.size / 4096) edx }) ls
      (withRegion reg p x (r.size / 4096 + 1) r.base) := by
  have ht := hI.tiled p
  obtain ⟨-, -, -, hend⟩ := ht.occurs hx.1
  have hplace := (hI.kernel.blocks _ (hI.kernel.regions r hr).2.2).1
  generalize hn : r.size / 4096 = n at hx hend ⊢
  let h' : Heap := { w.heap p with tabs := mapRegion (w.heap p).tabs (x + 1) (r.base / 4096) n edx }
  have hheap : h'.heapBase = (w.heap p).heapBase := rfl
  have hin : ∀ i, x < i → i < x + (n + 1) →
      h'.tabs i = pageAlign (w.kernelTabs (r.base / 4096 + (i - (x + 1)))) ||| edx.toNat := by
    intro i hlo hhi
    have hkernel := heap_tabs_kernel w p (i := r.base / 4096 + (i - (x + 1))) (by unfold topPage; dsimp only at hplace; omega)
    rw [← hkernel]
    exact if_pos (by omega)
  have hout : ∀ i, i ≤ x ∨ x + (n + 1) ≤ i → h'.tabs i = (w.heap p).tabs i := fun i hi => if_neg (by omega)
  have hblock : ∀ i, x < i → i < x + (n + 1) → blockOf ((w.heap p).heapBase / 4096) (ls p) i = x := fun i hlo hhi =>
    blockOf_occurs ht.row hx.1 (Nat.le_of_lt hlo) hhi
  have hsrc : ∀ k q, Maps (w.store p h') k q → Maps w (regionPlace p x (n + 1) r.base k) q ∧
      groupOf (w.store p h') (update ls p (ls p)) (withRegion reg p x (n + 1) r.base) k =
        groupOf w ls reg (regionPlace p x (n + 1) r.base k) := by
    intro k q hk
    cases k with
    | kernel r' j => exact ⟨(maps_store_kernel fun i hi => hout i (by unfold topPage at hi; omega)).mp hk, rfl⟩
    | user p' i =>
      by_cases hp : p' = p
      · subst hp
        rw [group_store_self hheap]
        obtain ⟨hi, hpresent, hpage⟩ := maps_store_self.mp hk
        by_cases hnew : x < i ∧ i < x + (n + 1)
        · obtain ⟨-, hshared, -, hsame⟩ := shared_entry hedx (w.kernelTabs (r.base / 4096 + (i - (x + 1))))
          rw [hin i hnew.1 hnew.2] at hpage ⊢
          simp only [regionPlace, withRegion, if_pos hshared, hnew, and_self, if_true]
          refine ⟨⟨⟨r, hr, rfl, by omega⟩, hI.kernel.present r hr _ (by omega), hsame.symm.trans hpage⟩, rfl⟩
        · rw [hout i (by omega), heap_tabs_user w p' hi] at hpresent hpage ⊢
          simp only [regionPlace, withRegion, hnew, and_false, if_false]
          exact ⟨⟨hi, hpresent, hpage⟩, rfl⟩
      · rw [group_store_ne hp]
        simp only [regionPlace, hp, false_and, if_false]
        refine ⟨(maps_store_ne hp).mp hk, ?_⟩
        simp [groupOf, withRegion, hp]
  have hstore : Inv process (w.store p h') (update ls p (ls p)) (withRegion reg p x (n + 1) r.base) := by
    refine hI.store (changed_inside ht hx (fun i hlo hhi => ?_) hout ⟨rfl, rfl⟩).tiled hheap
      (fun i hi => hout i (by unfold topPage at hi; omega)) hI.valid
      (hI.owned.survive _ id hsrc fun q hq => .inl hq) (fun i hi hpresent hshared => ?_) fun p' i hp => ?_
    · rw [hin i hlo hhi]
      exact ⟨(shared_entry hedx _).2.2.1, fun h => (by cases h), fun h => by cases h⟩
    · by_cases hnew : x < i ∧ i < x + (n + 1)
      · refine ⟨m, hm, hslot, ?_, by rw [hblock i hnew.1 hnew.2]; exact hbase⟩
        rw [withRegion, if_pos ⟨rfl, hnew⟩]
        exact hparent
      · rw [hout i (by omega), heap_tabs_user w p hi] at hpresent hshared
        rw [withRegion, if_neg (fun hc => hnew hc.2)]
        exact hI.linked p i hi hpresent hshared
    · exact if_neg fun hc => hp hc.1
  rwa [update_eq_self] at hstore

/-! ## `shmem_open` -/

def Opened (process : Nat → Nat) (r : Option (World × BitVec 32 × BitVec 32)) : Prop :=
  ∃ w' eax edx ls' reg', r = some (w', eax, edx) ∧ Inv process w' ls' reg'

theorem Inv.opened_same (hI : Inv process w ls reg) (eax edx : BitVec 32) : Opened process (some (w, eax, edx)) :=
  ⟨w, eax, edx, ls, reg, rfl, hI⟩

theorem Inv.create_map (hI : Inv process w ls reg) (hslot : process slot = p) (hr : r ∈ w.shmemList)
    (access : BitVec 32) (howner : ownerAccess = 0 ∨ ownerAccess = shmWrite) (mapped : BitVec 32) (object : Bool) :
    Opened process (createMap w slot p r access ownerAccess mapped object) := by
  obtain ⟨-, hsize, hblock⟩ := hI.kernel.regions r hr
  have hbounds := hI.kernel.blocks _ hblock
  have htoNat : (BitVec.ofNat 32 r.size).toNat = r.size := by
    rw [BitVec.toNat_ofNat]
    omega
  have hfor : pagesFor (BitVec.ofNat 32 r.size).toNat = r.size / 4096 + 1 := by
    rw [htoNat]
    unfold pagesFor
    omega
  unfold createMap
  simp only
  by_cases haccess : access &&& shmAccessMask > r.access
  · rw [if_pos haccess]
    exact hI.opened_same _ _
  rw [if_neg haccess]
  by_cases hobject : object = true
  swap
  · rw [if_pos hobject]
    exact hI.opened_same _ _
  rw [if_neg (not_not.mpr hobject)]
  have hheap : (w.setRefcount r.base (· + 1)).heap p = w.heap p := rfl
  unfold World.call
  rw [hheap]
  rcases user_alloc_spec (hI.tiled p) clean_reserved (by omega : (BitVec.ofNat 32 r.size).toNat ≤ 0xFFFFE000) with
    ⟨hfail, -⟩ | ⟨x, h', l', hcall, hnew, -⟩
  · -- No room: the map ends at once.
    simp only [hfail, Option.map_some, if_true]
    have hadded := (hI.store_same p).add_map (m := ⟨slot, 0, r.base⟩) ⟨r, hr, rfl⟩ (.inl rfl)
    exact ⟨_, _, _, _, _, rfl, hadded.destroy_smap List.mem_cons_self fun i _ _ _ => by simp⟩
  rw [hfor] at hnew
  have hx : Live (h'.heapBase / 4096) l' x .used (r.size / 4096 + 1) := by
    rw [hnew.changed.heapBase]
    exact (hnew.changed.live x _ _).mpr (.inr ⟨rfl, rfl, rfl⟩)
  obtain ⟨-, -, hlo, hend⟩ := hnew.changed.tiled.occurs hx.1
  obtain ⟨hptr, hnonzero⟩ := block_pointer (by omega : x < 0x80000)
  simp only [hcall, Option.map_some, if_neg hnonzero, hptr]
  have hadded := (hI.new_block hnew).add_map (m := ⟨slot, BitVec.ofNat 32 (4096 * (x + 1)), r.base⟩) ⟨r, hr, rfl⟩
    (.inr (by dsimp only; rw [hptr, hslot, store_procs_self]; unfold topPage; dsimp only; omega))
  -- The region is in the list with a larger count.
  obtain ⟨s, hs, hbase, hsizes⟩ : ∃ s ∈ (w.setRefcount r.base (· + 1)).shmemList, s.base = r.base ∧ s.size = r.size := by
    refine ⟨_, List.mem_map.mpr ⟨r, hr, rfl⟩, ?_⟩
    rw [if_pos rfl]
    exact ⟨rfl, rfl⟩
  let w2 : World := { (w.store p h').setRefcount r.base (· + 1) with
    objects := ⟨slot, BitVec.ofNat 32 (4096 * (x + 1)), r.base⟩ :: w.objects }
  have hx2 : Live ((w2.heap p).heapBase / 4096) (update ls p l' p) x .used (s.size / 4096 + 1) := by
    rw [show w2.heap p = h' from store_heap_self w p h', hsizes, update_self]
    exact hx
  have hmapped := hadded.map_region hs List.mem_cons_self hbase.symm hslot hptr hx2 (map_flags access howner)
  rw [hbase, hsizes] at hmapped
  exact ⟨_, _, _, _, _, rfl, hmapped⟩

theorem rounded_pages (size : BitVec 32) :
    let rounded := BitVec.ofNat 32 (pageAlign ((size.toNat + 4095) % 2 ^ 32))
    rounded.toNat = 4096 * ((rounded.toNat + 4095) % 2 ^ 32 / 4096) := by
  intro rounded
  have htoNat : rounded.toNat = pageAlign ((size.toNat + 4095) % 2 ^ 32) % 2 ^ 32 := BitVec.toNat_ofNat ..
  unfold pageAlign at htoNat
  omega

theorem Inv.new_region (pat pge : Bool) {size : BitVec 32} (hI : Inv process w ls reg) (hslot : process slot = p)
    (hsize : size.toNat = 4096 * ((size.toNat + 4095) % 2 ^ 32 / 4096)) (place : Nat) (access : BitVec 32)
    (name : List (BitVec 8)) (object : Bool) :
    Opened process (
      let (w, base) := kernelAlloc (pteValidMask pat pge) w size place
      if base = 0 then some (w, 0, eNomem)
      else
        let r : Smem := ⟨base, size.toNat, access &&& shmAccessMask, 0, name.take 31⟩
        createMap { w with shmemList := r :: w.shmemList } slot p r access shmWrite (BitVec.ofNat 32 base) object) := by
  have hspec := kernel_alloc_spec pat pge hI.valid size place
  rcases hcall : kernelAlloc (pteValidMask pat pge) w size place with ⟨w', base⟩
  rw [hcall] at hspec
  dsimp only at hspec ⊢
  by_cases hbase : base = 0
  · rw [if_pos hbase]
    rcases hspec with hfail | ⟨n, hn, hspace, hc, -⟩
    · obtain rfl := congrArg Prod.fst hfail
      exact hI.opened_same _ _
    · have hI' := hI.committed hn hspace hc fun r (hr : r ∈ (none : Option Smem)) => by cases hr
      exact hI'.opened_same _ _
  rw [if_neg hbase]
  rcases hspec with hfail | ⟨n, hn, hspace, hc, hret⟩
  · exact absurd (congrArg Prod.snd hfail) hbase
  obtain ⟨hplace, hpages, hdone⟩ := hret.resolve_left hbase
  rw [← hpages] at hsize
  have hI' := hI.committed hn hspace hc
    fun r (hr : r ∈ some (⟨base, size.toNat, access &&& shmAccessMask, 0, name.take 31⟩ : Smem)) => by
      obtain rfl := Option.mem_some_iff.mp hr
      exact ⟨hplace, hsize, rfl, hdone⟩
  exact hI'.create_map hslot List.mem_cons_self access (.inr rfl) _ _

theorem Inv.shmem_open (pat pge : Bool) (hI : Inv process w ls reg) (hslot : process slot = p)
    (name : Option (List (BitVec 8))) (size access : BitVec 32) (answers : Answers) :
    Opened process (shmemOpen (pteValidMask pat pge) w slot p name size access answers) := by
  unfold shmemOpen
  cases name with
  | none => exact hI.opened_same _ _
  | some name =>
    dsimp only
    split
    case h_1 r hfind =>
      -- The region is there.
      have hr := List.mem_of_find?_eq_some hfind
      split_ifs
      · exact hI.opened_same _ _
      · exact hI.create_map hslot hr access (.inl rfl) 0 answers.object
      · exact hI.opened_same _ _
    case h_2 =>
      by_cases hopen : access &&& shmOpenMask = shmOpen
      · rw [if_pos hopen]
        exact hI.opened_same _ _
      rw [if_neg hopen]
      by_cases haction : access &&& shmOpenMask ≠ shmCreate ∧ access &&& shmOpenMask ≠ shmOpenAlways
      · rw [if_pos haction]
        exact hI.opened_same _ _
      rw [if_neg haction]
      by_cases hzero : size = 0
      · rw [if_pos hzero]
        exact hI.opened_same _ _
      rw [if_neg hzero]
      by_cases hsmem : answers.smem = true
      swap
      · rw [if_pos hsmem]
        exact hI.opened_same _ _
      rw [if_neg (not_not.mpr hsmem)]
      exact hI.new_region pat pge hslot (rounded_pages size) answers.place access name answers.object

/-! ## `shmem_close` -/

theorem shared_in_used {h : Heap} {l : List (Kind × Nat)} (ht : Tiled Clean h l) {i : Nat} (hi : i < topPage)
    (hpresent : Present (h.tabs i)) (hshared : Shared (h.tabs i)) :
    (i < h.heapBase / 4096 ∧ blockOf (h.heapBase / 4096) l i = i) ∨
      ∃ n, Live (h.heapBase / 4096) l (blockOf (h.heapBase / 4096) l i) .used n := by
  rcases Nat.lt_or_ge i (h.heapBase / 4096) with hlow | hhigh
  · exact .inl ⟨hlow, blockOf_lt ht.row hlow⟩
  obtain ⟨x, k, n, ⟨hx, hk⟩, hlo, hin, hclean⟩ := present_in_block ht hhigh hi hpresent
  rw [blockOf_occurs ht.row hx (Nat.le_of_lt hlo) hin]
  cases k with
  | free => exact absurd rfl hk
  | used => exact .inr ⟨n, hx, nofun⟩
  | fixed => exact absurd hshared (hclean.2.2 rfl)

theorem Inv.shmem_close (hI : Inv process w ls reg) (hslot : process slot = p) (name : Option (List (BitVec 8))) :
    ∃ w' ls', shmemClose w slot p name = some w' ∧ Inv process w' ls' reg := by
  unfold shmemClose
  cases name with
  | none => exact ⟨w, ls, rfl, hI⟩
  | some name =>
    simp only
    split
    case h_1 => exact ⟨w, ls, rfl, hI⟩
    case h_2 m hfind =>
      have hm := List.mem_of_find?_eq_some hfind
      have hfound := List.find?_some hfind
      rw [Bool.and_eq_true, decide_eq_true_eq] at hfound
      have hmaps := hI.kernel.maps m hm
      rw [hfound.1, hslot] at hmaps
      have hheader : m.base = 0 ∨ HeaderOk (w.heap p) (headerIndex (m.base.toNat / 4096)) := by
        rcases hmaps with hzero | ⟨hlo, hhi⟩
        · exact .inl hzero
        · obtain ⟨c, hc⟩ : ∃ c, m.base.toNat / 4096 = c + 1 := ⟨m.base.toNat / 4096 - 1, by omega⟩
          unfold topPage at hhi
          rw [hc, headerIndex_succ (by omega)]
          exact .inr (.inl ⟨by show (w.procs p).heapBase / 4096 ≤ c; omega, by unfold topPage; omega⟩)
      obtain ⟨h', eax, l', hcall, hbase, hI', hnone⟩ := hI.user_free p hheader
      simp only [World.call, hcall, Option.map_some]
      refine ⟨_, _, rfl, hI'.destroy_smap hm fun i hi hpresent hshared heq => ?_⟩
      -- Nothing is left of the block of the map.
      rw [hfound.1, hslot, store_procs_self] at hpresent hshared
      rw [hfound.1, hslot, store_blockAt_self hbase] at heq
      have ht := hI'.tiled p
      rw [store_heap_self, update_self] at ht
      rcases shared_in_used ht hi hpresent hshared with ⟨hlow, hself⟩ | ⟨n, hlive⟩
      · rw [hbase] at hlow hself
        rcases hmaps with hzero | ⟨hlo, -⟩
        · rw [hzero] at heq
          simp at heq
        · have hlow : i < (w.procs p).heapBase / 4096 := hlow
          omega
      · rw [hbase] at hlive
        exact hnone _ n heq hlive

end Kolibri.Shmem
