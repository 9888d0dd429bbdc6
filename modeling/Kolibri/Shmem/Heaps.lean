import Kolibri.Shmem.Spec
import Kolibri.UserHeap.Realloc
import Kolibri.UserHeap.Map

/-! # The heap calls keep the owners of the pages -/

namespace Kolibri.Shmem

open Bitmap Paging UserHeap Tiling Ownership Function Nat

variable {process : Nat → Nat} {w : World} {ls : Nat → List (Kind × Nat)} {reg : Nat → Nat → Nat} {p : Nat}
  {h h' : Heap} {l l' : List (Kind × Nat)}

/-! ## Entries that stay or move -/

/-- Entry `i` of `h'` was entry `s` of `h`, and block `c` is now block `ren c`. -/
structure Source (h : Heap) (l : List (Kind × Nat)) (ren : Nat → Nat) (h' : Heap) (l' : List (Kind × Nat))
    (i s : Nat) : Prop where
  lt : s < topPage
  entry : h'.tabs i = h.tabs s
  block : blockOf (h.heapBase / 4096) l' i = ren (blockOf (h.heapBase / 4096) l s)
  shared : Shared (h'.tabs i) → s = i ∧ blockOf (h.heapBase / 4096) l' i = blockOf (h.heapBase / 4096) l i

def Sources (h : Heap) (l : List (Kind × Nat)) (src ren : Nat → Nat) (h' : Heap) (l' : List (Kind × Nat)) : Prop :=
  ∀ i, i < topPage → Present (h'.tabs i) → Source h l ren h' l' i (src i)

def GivenBack (h : Heap) (l : List (Kind × Nat)) (src : Nat → Nat) (h' : Heap) (q : Nat) : Prop :=
  ∃ i₀, i₀ < topPage ∧ Private (h.tabs i₀) ∧ pageOf (h.tabs i₀) = q ∧ ∀ i, i < topPage → Private (h'.tabs i) →
      blockOf (h.heapBase / 4096) l (src i) = blockOf (h.heapBase / 4096) l i₀ → pageOf (h'.tabs i) ≠ q

def oldPlace (p : Nat) (src : Nat → Nat) : Place → Place
  | .user p' i => .user p' (if p' = p then src i else i)
  | .kernel r j => .kernel r j

def newGroup (p : Nat) (ren : Nat → Nat) : Group → Group
  | .block p' c => .block p' (if p' = p then ren c else c)
  | .region r => .region r

variable {ren src : Nat → Nat} {q i x c n : Nat} {gone : Nat → Prop} {new : Nat → Nat → Prop} {size base : BitVec 32}
  {k : Kind}

theorem maps_oldPlace (hs : Sources (w.heap p) (ls p) src ren h' l') (hbase : h'.heapBase = (w.heap p).heapBase)
    (hout : ∀ i, topPage ≤ i → h'.tabs i = (w.heap p).tabs i) (reg : Nat → Nat → Nat) (k : Place) (q : Nat)
    (hk : Maps (w.store p h') k q) :
    Maps w (oldPlace p src k) q ∧ groupOf (w.store p h') (update ls p l') reg k =
      newGroup p ren (groupOf w ls reg (oldPlace p src k)) := by
  cases k with
  | kernel r j => exact ⟨(maps_store_kernel hout).mp hk, rfl⟩
  | user p' i =>
    by_cases hp : p' = p
    · subst hp
      obtain ⟨hi, hpresent, hpage⟩ := maps_store_self.mp hk
      have hsrc := hs i hi hpresent
      have hentry := hsrc.entry
      rw [heap_tabs_user w p' hsrc.lt] at hentry
      rw [group_store_self hbase]
      simp only [oldPlace, if_true, Maps, groupOf, ← hentry]
      refine ⟨⟨hsrc.lt, hpresent, hpage⟩, ?_⟩
      by_cases hshared : Shared (h'.tabs i)
      · rw [if_pos hshared, if_pos hshared, (hsrc.shared hshared).1]
        rfl
      · rw [if_neg hshared, if_neg hshared, hsrc.block]
        simp only [newGroup, if_true]
        rfl
    · rw [group_store_ne hp]
      simp only [oldPlace, if_neg hp]
      refine ⟨(maps_store_ne hp).mp hk, ?_⟩
      by_cases hshared : Shared ((w.procs p').tabs i)
      · simp [groupOf, if_pos hshared, newGroup]
      · simp [groupOf, if_neg hshared, newGroup, if_neg hp]

theorem GivenBack.unmapped (hI : Inv process w ls reg) (hs : Sources (w.heap p) (ls p) src ren h' l')
    (hbase : h'.heapBase = (w.heap p).heapBase) (hout : ∀ i, topPage ≤ i → h'.tabs i = (w.heap p).tabs i)
    (hq : GivenBack (w.heap p) (ls p) src h' q) (k : Place) : ¬ Maps (w.store p h') k q := by
  intro hk
  obtain ⟨i₀, hi0, ⟨hpresent, hprivate⟩, hpage, hgone⟩ := hq
  rw [heap_tabs_user w p hi0] at hpresent hprivate hpage
  obtain ⟨hold, -⟩ := maps_oldPlace hs hbase hout reg k q hk
  have hgroup : groupOf w ls reg (oldPlace p src k) = .block p (w.blockAt ls p i₀) := by
    rw [hI.owned.together _ (.user p i₀) q hold ⟨hi0, hpresent, hpage⟩]
    exact if_neg hprivate
  cases k with
  | kernel r j => cases hgroup
  | user p' i =>
    by_cases hp : p' = p
    · -- An entry of the block in the process itself.
      subst hp
      obtain ⟨hi, hpresent', hpage'⟩ := maps_store_self.mp hk
      have hentry := (hs i hi hpresent').entry
      rw [heap_tabs_user w p' (hs i hi hpresent').lt] at hentry
      simp only [oldPlace, if_true, groupOf, ← hentry] at hgroup
      split_ifs at hgroup with hshared
      injection hgroup with _ hblock
      exact hgone i hi ⟨hpresent', hshared⟩ hblock hpage'
    · simp only [oldPlace, if_neg hp, groupOf] at hgroup
      split_ifs at hgroup with hshared
      injection hgroup with heq
      exact hp heq

theorem Inv.store_survive (hI : Inv process w ls reg) (ht : Tiled Clean h' l')
    (hbase : h'.heapBase = (w.heap p).heapBase) (hout : ∀ i, topPage ≤ i → h'.tabs i = (w.heap p).tabs i)
    (hvalid : h'.bitmap.Valid) (hs : Sources (w.heap p) (ls p) src ren h' l')
    (hfree : ∀ q, h'.bitmap.free q = true → w.bitmap.free q = true ∨ GivenBack (w.heap p) (ls p) src h' q) :
    Inv process (w.store p h') (update ls p l') reg := by
  refine hI.store ht hbase hout hvalid ?_ (fun i hi hpresent hshared => ?_) fun _ _ _ => rfl
  · refine hI.owned.survive (oldPlace p src) (newGroup p ren) (maps_oldPlace hs hbase hout reg) fun q hq => ?_
    rcases hfree q hq with hold | hgiven
    · exact .inl hold
    · exact .inr (hgiven.unmapped hI hs hbase hout)
  obtain ⟨hsrc, hblock⟩ := (hs i hi hpresent).shared hshared
  have hentry := (hs i hi hpresent).entry
  rw [hsrc, heap_tabs_user w p hi] at hentry
  rw [hblock]
  rw [hentry] at hpresent hshared
  exact hI.linked p i hi hpresent hshared

theorem changed_entry (ht : Tiled Clean h l) (hc : Changed Clean h l gone new h' l') (hi : i < topPage)
    (hpresent : Present (h'.tabs i)) :
    (h'.tabs i = h.tabs i ∧ blockOf (h.heapBase / 4096) l' i = blockOf (h.heapBase / 4096) l i ∧
      (i < h.heapBase / 4096 ∧ blockOf (h.heapBase / 4096) l i = i ∨ ¬ gone (blockOf (h.heapBase / 4096) l i))) ∨
    ∃ x n, new x n ∧ x < i ∧ i < x + n := by
  have hrow := hc.tiled.row
  rw [hc.heapBase] at hrow
  rcases lt_or_ge i (h.heapBase / 4096) with hlow | hhigh
  · have hsame := blockOf_lt ht.row hlow
    exact .inl ⟨hc.outside i (.inl hlow), (blockOf_lt hrow hlow).trans hsame.symm, .inl ⟨hlow, hsame⟩⟩
  obtain ⟨x, k, n, hlive, hlt, hin, -⟩ := present_in_block hc.tiled (by rwa [hc.heapBase]) hi hpresent
  rw [hc.heapBase] at hlive
  have hlo := le_of_lt hlt
  rcases (hc.live x k n).mp hlive with ⟨hold, hstay⟩ | ⟨-, hnew⟩
  · have hsame := blockOf_occurs ht.row hold.1 hlo hin
    refine .inl ⟨hc.kept x k n hold hstay i hlo hin, (blockOf_occurs hrow hlive.1 hlo hin).trans hsame.symm, .inr ?_⟩
    rwa [hsame]
  · exact .inr ⟨x, n, hnew, hlt, hin⟩

theorem sources_same (ht : Tiled Clean h l) (hc : Changed Clean h l gone new h' l')
    (hnew : ∀ x n, new x n → ∀ i, x < i → i < x + n → ¬ Present (h'.tabs i)) : Sources h l id id h' l' := by
  intro i hi hpresent
  rcases changed_entry ht hc hi hpresent with ⟨hsame, hblock, -⟩ | ⟨x, n, hx, hlo, hhi⟩
  · exact ⟨hi, hsame, hblock, fun _ => ⟨rfl, hblock⟩⟩
  · exact absurd hpresent (hnew x n hx i hlo hhi)

/-! ## New pages -/

section

variable (hI : Inv process w ls reg)
include hI

theorem Inv.store_fresh (ht : Tiled Clean h' (ls p))
    (hbase : h'.heapBase = (w.heap p).heapBase) (hout : ∀ i, topPage ≤ i → h'.tabs i = (w.heap p).tabs i)
    (hvalid : h'.bitmap.Valid) (hfree : ∀ q, h'.bitmap.free q = true → w.bitmap.free q = true)
    (hentry : ∀ i, i < topPage → h'.tabs i = (w.heap p).tabs i ∨ ¬ Shared (h'.tabs i) ∧
      w.bitmap.free (pageOf (h'.tabs i)) = true ∧ h'.bitmap.free (pageOf (h'.tabs i)) = false)
    (hone : ∀ i i', h'.tabs i ≠ (w.heap p).tabs i → h'.tabs i' ≠ (w.heap p).tabs i' →
      blockOf ((w.heap p).heapBase / 4096) (ls p) i = blockOf ((w.heap p).heapBase / 4096) (ls p) i') :
    Inv process (w.store p h') ls reg := by
  -- The old places map what they did, and the new entries are private.
  have hmaps : ∀ k q, Maps (w.store p h') k q →
      (Maps w k q ∧ groupOf (w.store p h') (update ls p (ls p)) reg k = groupOf w ls reg k) ∨
      (w.bitmap.free q = true ∧ ¬ h'.bitmap.free q = true) ∧ ∃ i, h'.tabs i ≠ (w.heap p).tabs i ∧
        groupOf (w.store p h') (update ls p (ls p)) reg k =
          .block p (blockOf ((w.heap p).heapBase / 4096) (ls p) i) := by
    intro k q hk
    cases k with
    | kernel r j => exact .inl ⟨(maps_store_kernel hout).mp hk, rfl⟩
    | user p' i =>
      by_cases hp : p' = p
      · subst hp
        obtain ⟨hi, hpresent, hpage⟩ := maps_store_self.mp hk
        rw [group_store_self hbase]
        by_cases hsame : h'.tabs i = (w.heap p').tabs i
        · rw [heap_tabs_user w p' hi] at hsame
          rw [hsame] at hpresent hpage ⊢
          exact .inl ⟨⟨hi, hpresent, hpage⟩, rfl⟩
        · obtain ⟨hshared, hwas, hnow⟩ := (hentry i hi).resolve_left hsame
          rw [hpage] at hwas hnow
          exact .inr ⟨⟨hwas, by rw [hnow]; decide⟩, i, hsame, if_neg hshared⟩
      · exact .inl ⟨(maps_store_ne hp).mp hk, group_store_ne hp⟩
  have hstore : Inv process (w.store p h') (update ls p (ls p)) reg := by
    refine hI.store ht hbase hout hvalid ?_ (fun i hi hpresent hshared => ?_) fun _ _ _ => rfl
    · refine hI.owned.add (fun k q hk => ?_) (fun k k' q hk hk' hq => ?_) hfree
      · rcases hmaps k q hk with hold | ⟨hnew, -⟩
        · exact .inl hold
        · exact .inr hnew
      rcases hmaps k q hk with ⟨hold, -⟩ | ⟨-, i, hne, hgroup⟩
      · exact absurd hq (hI.owned.taken k q hold)
      rcases hmaps k' q hk' with ⟨hold, -⟩ | ⟨-, i', hne', hgroup'⟩
      · exact absurd hq (hI.owned.taken k' q hold)
      rw [hgroup, hgroup', hone i i' hne hne']
    · rcases hentry i hi with hsame | ⟨hprivate, -⟩
      · rw [heap_tabs_user w p hi] at hsame
        rw [hsame] at hpresent hshared
        exact hI.linked p i hi hpresent hshared
      · exact absurd hshared hprivate
  rwa [update_eq_self] at hstore

/-! ## The calls -/

theorem Inv.store_changed (hc : Changed Clean (w.heap p) (ls p) gone new h' l')
    (hnew : ∀ x n, new x n → ∀ i, x < i → i < x + n → ¬ Present (h'.tabs i)) (hvalid : h'.bitmap.Valid)
    (hfree : ∀ q, h'.bitmap.free q = true → w.bitmap.free q = true ∨ GivenBack (w.heap p) (ls p) id h' q) :
    Inv process (w.store p h') (update ls p l') reg :=
  hI.store_survive hc.tiled hc.heapBase (fun i hi => hc.outside i (.inr hi)) hvalid (sources_same (hI.tiled p) hc hnew)
    hfree

theorem Inv.store_same (p : Nat) : Inv process (w.store p (w.heap p)) ls reg := by
  have hstore := hI.store_changed (Changed.refl (hI.tiled p)) (fun _ _ hf => hf.elim) hI.valid fun _ hq => .inl hq
  rwa [update_eq_self] at hstore

theorem Inv.heap_guard (p : Nat) : (w.heap p).tabs topPage &&& memBlockUsed = 0 := by
  rw [heap_tabs_kernel w p (le_refl _)]
  exact hI.guard

def Kept (process : Nat → Nat) (w : World) (p : Nat) (reg : Nat → Nat → Nat) (r : Option (Heap × BitVec 32)) : Prop :=
  ∃ h' eax ls', r = some (h', eax) ∧ Inv process (w.store p h') ls' reg

theorem Inv.kept_same (p : Nat) (eax : BitVec 32) : Kept process w p reg (some (w.heap p, eax)) :=
  ⟨_, eax, ls, rfl, hI.store_same p⟩

theorem Inv.new_block {m : Nat} (hnew : NewBlock Clean (w.heap p) (ls p) x m h' l') :
    Inv process (w.store p h') (update ls p l') reg := by
  refine hI.store_changed hnew.changed ?_ (by rw [hnew.bitmap]; exact hI.valid) fun q hq => ?_
  · rintro x n ⟨rfl, rfl⟩ i hlo hhi
    rw [hnew.reserved i hlo hhi]
    exact not_present_reserved
  · rw [hnew.bitmap] at hq
    exact .inl hq

theorem Inv.user_alloc (p : Nat) (hsize : size.toNat ≤ 0xFFFFE000) :
    Kept process w p reg (userAlloc (w.heap p) size) := by
  rcases user_alloc_spec (hI.tiled p) clean_reserved hsize with ⟨hfail, -⟩ | ⟨x, h', l', hcall, hnew, -⟩
  · rw [hfail]
    exact hI.kept_same p 0
  · exact ⟨h', _, _, hcall, hI.new_block hnew⟩

end

theorem givenBack_gone (ht : Tiled Clean h l) (hc : Changed Clean h l (fun z => z = c) (fun _ _ => False) h' l')
    (hlive : Live (h.heapBase / 4096) l c k n) (hlo : c < i) (hhi : i < c + n) (hprivate : Private (h.tabs i)) :
    GivenBack h l id h' (pageOf (h.tabs i)) := by
  obtain ⟨-, -, hbase, hend⟩ := ht.occurs hlive.1
  refine ⟨i, by unfold topPage; omega, hprivate, rfl, fun i' hi' hprivate' hsame => ?_⟩
  rw [blockOf_occurs ht.row hlive.1 (le_of_lt hlo) hhi] at hsame
  rcases changed_entry ht hc hi' hprivate'.1 with ⟨-, -, ⟨hlow, hself⟩ | hstay⟩ | ⟨-, -, hf, -⟩
  · have heq : i' = c := hself.symm.trans hsame
    omega
  · exact absurd hsame hstay
  · exact hf.elim

theorem Inv.store_gone {sel : Nat → Prop} (hI : Inv process w ls reg)
    (hc : Changed Clean (w.heap p) (ls p) (fun z => z = c) (fun _ _ => False) h' l')
    (hlive : Live ((w.heap p).heapBase / 4096) (ls p) c k n)
    (hgave : Gave w.bitmap (Selected sel (w.heap p).tabs (c + 1) (n - 1)) h'.bitmap)
    (hsel : ∀ i, c < i → i < c + n → sel ((w.heap p).tabs i) → Private ((w.heap p).tabs i)) :
    Inv process (w.store p h') (update ls p l') reg := by
  refine hI.store_changed hc (fun _ _ hf => hf.elim) (hgave.valid hI.valid) fun q hq => ?_
  rcases (hgave.free q).mp hq with hold | ⟨i, hlo, hhi, hi, rfl⟩
  · exact .inl hold
  · have hpos := ((hI.tiled p).occurs hlive.1).1
    have hprivate := hsel i (by omega) (by omega) hi
    exact .inr (givenBack_gone (hI.tiled p) hc hlive (by omega) (by omega) hprivate)

theorem Inv.user_free (hI : Inv process w ls reg) (p : Nat)
    (hheader : base = 0 ∨ HeaderOk (w.heap p) (headerIndex (base.toNat / 4096))) :
    ∃ h' eax l', userFree (w.heap p) base = some (h', eax) ∧ h'.heapBase = (w.heap p).heapBase ∧
      Inv process (w.store p h') (update ls p l') reg ∧
      ∀ c n, base.toNat / 4096 = c + 1 → ¬ Live ((w.heap p).heapBase / 4096) l' c .used n := by
  have ht := hI.tiled p
  have hsame := hI.store_same p
  rw [← update_eq_self p ls] at hsame
  rcases hheader with rfl | hheader
  · exact ⟨_, 0, ls p, if_pos rfl, rfl, hsame, fun c n hc => by simp at hc⟩
  by_cases hin : (w.heap p).heapBase / 4096 ≤ headerIndex (base.toNat / 4096) ∧ headerIndex (base.toNat / 4096) < topPage
  · obtain ⟨hlo, hhi⟩ := hin
    have hbase := headerIndex_add_one hhi
    rcases user_free_spec ht clean_free clean_quiet (hI.heap_guard p) hbase hlo hhi with
      ⟨hcall, hnone⟩ | ⟨n, h', l', hlive, hcall, hc, hgave, -⟩
    · refine ⟨_, 1, ls p, hcall, rfl, hsame, fun c n hc => ?_⟩
      obtain rfl : headerIndex (base.toNat / 4096) = c := by omega
      exact hnone n
    refine ⟨h', 1, l', hcall, hc.heapBase, hI.store_gone hc hlive hgave fun i _ _ hi => hi, fun c n' hcn => ?_⟩
    obtain rfl : headerIndex (base.toNat / 4096) = c := by omega
    intro hlive'
    rcases (hc.live _ _ _).mp hlive' with ⟨-, hne⟩ | ⟨-, hf⟩
    · exact hne rfl
    · exact hf
  · -- The header has not the bit of a used block.
    have hbit := hheader.resolve_left hin
    by_cases hzero : base = 0
    · exact ⟨_, 0, ls p, if_pos hzero, rfl, hsame, fun c n hc => by simp [hzero] at hc⟩
    refine ⟨_, 1, ls p, ?_, rfl, hsame, fun c n hc hlive => ?_⟩
    · unfold userFree
      rw [if_neg hzero]
      exact if_pos hbit
    · obtain ⟨hpos, hblock, -, hend⟩ := ht.occurs hlive.1
      rw [hc, headerIndex_succ (by omega), hblock.1] at hbit
      exact absurd hbit (by simp)

/-! ## `user_realloc` -/

/-- The page is private, and none of the first `q` pages of the block. -/
def Releasable (h : Heap) (c q entry : Nat) : Prop :=
  ¬ Shared entry ∧ ∀ j, j < q → Private (h.tabs (c + 1 + j)) → pageOf (h.tabs (c + 1 + j)) ≠ pageOf entry

instance (h : Heap) (c q entry : Nat) : Decidable (Releasable h c q entry) := inferInstanceAs (Decidable (_ ∧ _))

/-- A block that has to move has no shared pages. -/
def ReallocOk (h : Heap) (c q : Nat) : Prop :=
  let p := h.tabs c / 4096 - 1
  (∀ i, i < p → q ≤ i → Present (h.tabs (c + 1 + i)) → Releasable h c q (h.tabs (c + 1 + i))) ∧
  (p < q → ¬ GrowsInPlace h c p q → ∀ i, i < p → Present (h.tabs (c + 1 + i)) → ¬ Shared (h.tabs (c + 1 + i)))

instance (h : Heap) (c q : Nat) : Decidable (ReallocOk h c q) := inferInstanceAs (Decidable (_ ∧ _))

theorem resized_entry (ht : Tiled Clean h l) (hc : Live (h.heapBase / 4096) l c .used (n + 1))
    (hr : Resized Clean h l c n x q h' l') (hi : i < topPage) (hpresent : Present (h'.tabs i)) :
    (x < i ∧ i < x + (q + 1) ∧ i < x + (n + 1) ∧ h'.tabs i = h.tabs (c + (i - x)) ∧
      blockOf (h.heapBase / 4096) l' i = x ∧ blockOf (h.heapBase / 4096) l (c + (i - x)) = c) ∨
    (¬ (x < i ∧ i < x + (q + 1)) ∧ h'.tabs i = h.tabs i ∧
      blockOf (h.heapBase / 4096) l' i = blockOf (h.heapBase / 4096) l i ∧ blockOf (h.heapBase / 4096) l i ≠ c) := by
  by_cases hin : x < i ∧ i < x + (q + 1)
  · obtain ⟨hlo, hhi⟩ := hin
    have hx : Live (h.heapBase / 4096) l' x .used (q + 1) := (hr.changed.live x _ _).mpr (.inr ⟨rfl, rfl, rfl⟩)
    have hrow := hr.changed.tiled.row
    rw [hr.changed.heapBase] at hrow
    have hold : i < x + (n + 1) := by
      rcases lt_or_ge i (x + (n + 1)) with hlt | hge
      · exact hlt
      · have hres := hr.reserved (i - (x + 1)) (by omega) (by omega)
        rw [show x + 1 + (i - (x + 1)) = i by omega] at hres
        rw [hres] at hpresent
        exact absurd hpresent not_present_reserved
    have hmoved := hr.moved (i - (x + 1)) (by omega) (by omega)
    rw [show x + 1 + (i - (x + 1)) = i by omega, show c + 1 + (i - (x + 1)) = c + (i - x) by omega] at hmoved
    exact .inl ⟨hlo, hhi, hold, hmoved, blockOf_occurs hrow hx.1 (le_of_lt hlo) hhi,
      blockOf_occurs ht.row hc.1 (by omega) (by omega)⟩
  · have hbase := (ht.occurs hc.1).2.2.1
    rcases changed_entry ht hr.changed hi hpresent with ⟨hsame, hblock, ⟨hlow, hself⟩ | hstay⟩ | ⟨z, m, ⟨rfl, rfl⟩, hz⟩
    · exact .inr ⟨hin, hsame, hblock, by omega⟩
    · exact .inr ⟨hin, hsame, hblock, hstay⟩
    · exact absurd hz hin

theorem resized_sources (ht : Tiled Clean h l) (hc : Live (h.heapBase / 4096) l c .used (n + 1))
    (hr : Resized Clean h l c n x q h' l')
    (hshared : x = c ∨ ∀ i, i < n → Present (h.tabs (c + 1 + i)) → ¬ Shared (h.tabs (c + 1 + i))) :
    Sources h l (fun i => if x < i ∧ i < x + (q + 1) then c + (i - x) else i) (fun b => if b = c then x else b)
      h' l' := by
  have hend := (ht.occurs hc.1).2.2.2
  intro i hi hpresent
  rcases resized_entry ht hc hr hi hpresent with ⟨hlo, hhi, hold, hentry, hnew, hwas⟩ | ⟨hout, hentry, hblock, hne⟩
  · simp only [if_pos (show x < i ∧ i < x + (q + 1) from ⟨hlo, hhi⟩)]
    refine ⟨by unfold topPage; omega, hentry, by rw [hwas, if_pos rfl]; exact hnew, fun hsh => ?_⟩
    -- A block with a shared page has not moved.
    rcases hshared with rfl | hnone
    · rw [show x + (i - x) = i by omega] at hwas ⊢
      exact ⟨rfl, hnew.trans hwas.symm⟩
    · rw [hentry, show c + (i - x) = c + 1 + (i - x - 1) by omega] at hsh hpresent
      exact absurd hsh (hnone _ (by omega) hpresent)
  · simp only [if_neg hout]
    exact ⟨hi, hentry, by rw [if_neg hne]; exact hblock, fun _ => ⟨rfl, hblock⟩⟩

theorem Inv.resized (hI : Inv process w ls reg) (hc : Live ((w.heap p).heapBase / 4096) (ls p) c .used (n + 1))
    (hr : Resized Clean (w.heap p) (ls p) c n x q h' l') (hok : ReallocOk (w.heap p) c q) :
    Inv process (w.store p h') (update ls p l') reg := by
  have ht := hI.tiled p
  obtain ⟨-, hblock, -, hend⟩ := ht.occurs hc.1
  unfold ReallocOk at hok
  rw [hblock.1, hdr_div, Nat.add_sub_cancel] at hok
  obtain ⟨hgive, hmove⟩ := hok
  have hstays : x = c ∨ ∀ i, i < n → Present ((w.heap p).tabs (c + 1 + i)) → ¬ Shared ((w.heap p).tabs (c + 1 + i)) := by
    rcases hr.stays with ⟨hnq, hgrow⟩ | hx
    · exact .inr (hmove hnq hgrow)
    · exact .inl hx
  refine hI.store_survive hr.changed.tiled hr.changed.heapBase (fun i hi => hr.changed.outside i (.inr hi))
    (hr.bitmap.valid hI.valid) (resized_sources ht hc hr hstays) fun r hfree => ?_
  rcases (hr.bitmap.free r).mp hfree with hold | ⟨i₀, hlo, hhi, hpresent, rfl⟩
  · exact .inl hold
  right
  obtain ⟨d, rfl⟩ : ∃ d, i₀ = c + 1 + d := ⟨i₀ - (c + 1), by omega⟩
  obtain ⟨hprivate, hkept⟩ := hgive d (by omega) (by omega) hpresent
  refine ⟨c + 1 + d, by unfold topPage; omega, ⟨hpresent, hprivate⟩, rfl, fun i hi hpriv hsame => ?_⟩
  have hblock0 : blockOf ((w.heap p).heapBase / 4096) (ls p) (c + 1 + d) = c :=
    blockOf_occurs ht.row hc.1 (by omega) (by omega)
  rw [hblock0] at hsame
  rcases resized_entry ht hc hr hi hpriv.1 with ⟨hlo', hhi', -, hentry, -⟩ | ⟨hout, -, -, hne⟩
  · rw [hentry, show c + (i - x) = c + 1 + (i - x - 1) by omega] at hpriv ⊢
    exact hkept _ (by omega) hpriv
  · simp only [if_neg hout] at hsame
    exact absurd hsame hne

theorem Inv.user_realloc (hI : Inv process w ls reg) (p : Nat) {eax ebx : BitVec 32} (hebx : ebx.toNat ≤ 0xFFFFE000)
    (hok : eax = 0 ∨ HeaderOk (w.heap p) ((eax - 4096).toNat / 4096) ∧
      ReallocOk (w.heap p) ((eax - 4096).toNat / 4096) (payloadPages ebx.toNat)) :
    Kept process w p reg (userRealloc (w.heap p) eax ebx) := by
  by_cases hzero : eax = 0
  · subst hzero
    exact hI.user_alloc p hebx
  obtain ⟨hheader, hok⟩ := hok.resolve_left hzero
  rcases hheader with ⟨hlo, hhi⟩ | hbit
  swap
  · rw [user_realloc_refused hzero rfl (.inl hbit)]
    exact hI.kept_same p 0
  rcases user_realloc_outcomes (hI.tiled p) clean_free clean_reserved clean_quiet (hI.heap_guard p)
    (realloc_pointer hhi) hlo hhi hebx with hfail | ⟨n, hlive, ⟨rfl, h', l', hcall, hc, hgave⟩ | ⟨x, h', l', hcall, hr⟩⟩
  · rw [hfail]
    exact hI.kept_same p 0
  · refine ⟨h', 0, _, hcall, hI.store_gone hc hlive hgave fun i hlo' hhi' hpresent => ⟨hpresent, ?_⟩⟩
    have hblock := ((hI.tiled p).occurs hlive.1).2.1
    unfold ReallocOk at hok
    rw [hblock.1, hdr_div, Nat.add_sub_cancel] at hok
    obtain ⟨d, rfl⟩ : ∃ d, i = (eax - 4096).toNat / 4096 + 1 + d := ⟨i - ((eax - 4096).toNat / 4096 + 1), by omega⟩
    exact (hok.1 d (by omega) (Nat.zero_le d) hpresent).1
  · exact ⟨h', _, _, hcall, hI.resized hlive hr hok⟩

/-! ## `user_unmap` -/

def OnlyInside (h : Heap) (start count entry : Nat) : Prop :=
  ∀ j, j < topPage → j < start ∨ start + count ≤ j → Private (h.tabs j) → pageOf (h.tabs j) ≠ pageOf entry

instance (h : Heap) (start count entry : Nat) : Decidable (OnlyInside h start count entry) :=
  inferInstanceAs (Decidable (∀ j, j < topPage → _))

def UnmapOk (h : Heap) (start count : Nat) : Prop :=
  ∀ i, i < count → Private (h.tabs (start + i)) → OnlyInside h start count (h.tabs (start + i))

instance (h : Heap) (start count : Nat) : Decidable (UnmapOk h start count) :=
  inferInstanceAs (Decidable (∀ i, i < count → _))

theorem Inv.user_unmap (hI : Inv process w ls reg) (p : Nat) {offset : BitVec 32}
    (hok : base = 0 ∨ HeaderOk (w.heap p) (headerIndex (base.toNat / 4096)) ∧ unmapCount size ≠ 0 ∧
      UnmapOk (w.heap p) (unmapStart base offset) (unmapCount size)) :
    Kept process w p reg (some (userUnmap (w.heap p) base offset size)) := by
  by_cases hzero : base = 0
  · unfold userUnmap
    simp only [if_pos hzero]
    exact hI.kept_same p 0
  obtain ⟨hheader, hcount, hok⟩ := hok.resolve_left hzero
  have hres : ∀ k e, Clean k e → Present e → Clean k memBlockReserved := fun k e hk he =>
    hk.rewrite (fun hz => not_present_zero (hz ▸ he)) (by decide) (by decide)
  have hspec : userUnmap (w.heap p) base offset size = (w.heap p, 0) ∨ _ :=
    user_unmap_spec (hI.tiled p) clean_quiet hres hheader hcount
  rcases hspec with hfail | ⟨h', hcall, ht', hbase, hend, htabs, hgave⟩
  · rw [hfail]
    exact hI.kept_same p 0
  have hentry : ∀ i, Present (h'.tabs i) → h'.tabs i = (w.heap p).tabs i ∧
      ¬ (unmapStart base offset ≤ i ∧ i < unmapStart base offset + unmapCount size ∧ Private ((w.heap p).tabs i)) := by
    intro i hpresent
    rw [htabs] at hpresent ⊢
    split_ifs at hpresent ⊢ with hin
    · exact absurd hpresent not_present_reserved
    · exact ⟨rfl, hin⟩
  have hs : Sources (w.heap p) (ls p) id id h' (ls p) := fun i hi hpresent =>
    ⟨hi, (hentry i hpresent).1, rfl, fun _ => ⟨rfl, rfl⟩⟩
  have hstore : Inv process (w.store p h') (update ls p (ls p)) reg := by
    refine hI.store_survive ht' hbase (fun i hi => ?_) (hgave.valid hI.valid) hs fun q hq => ?_
    · rw [htabs, if_neg (by omega)]
    rcases (hgave.free q).mp hq with hold | ⟨i₀, hlo, hhi, hprivate, rfl⟩
    · exact .inl hold
    refine .inr ⟨i₀, by omega, hprivate, rfl, fun i hi hpriv _ => ?_⟩
    obtain ⟨hsame, hout⟩ := hentry i hpriv.1
    rw [hsame] at hpriv ⊢
    obtain ⟨d, rfl⟩ : ∃ d, i₀ = unmapStart base offset + d := ⟨i₀ - unmapStart base offset, by omega⟩
    refine hok d (by omega) hprivate i hi ?_ hpriv
    by_contra hin
    exact hout ⟨by omega, by omega, hpriv⟩
  exact ⟨h', 1, _, by rw [hcall], hstore⟩

/-! ## New pages -/

theorem entry_page (f : Nat) (hf : f < 2 ^ 20) : pageOf (4096 * f + 7) = f := by
  unfold pageOf
  omega

theorem Inv.store_bitmap (hI : Inv process w ls reg) (htabs : h'.tabs = (w.heap p).tabs)
    (hsame : h'.heapBase = (w.heap p).heapBase ∧ h'.heapTop = (w.heap p).heapTop) (hvalid : h'.bitmap.Valid)
    (hfree : ∀ q, h'.bitmap.free q = true → w.bitmap.free q = true) : Inv process (w.store p h') ls reg := by
  have hs : Sources (w.heap p) (ls p) id id h' (ls p) := fun i hi _ =>
    ⟨hi, by rw [htabs]; rfl, rfl, fun _ => ⟨rfl, rfl⟩⟩
  have hstore := hI.store_survive (tiled_congr (hI.tiled p) (fun i _ => by rw [htabs]) hsame) hsame.1
    (fun i _ => by rw [htabs]) hvalid hs fun q hq => .inl (hfree q hq)
  rwa [update_eq_self] at hstore

theorem Inv.page_fault (pat pge : Bool) (hI : Inv process w ls reg) (p : Nat) {page : Nat} (hpage : page < topPage) :
    Kept process w p reg (some (pageFault (pteValidMask pat pge) (w.heap p) page, 0)) := by
  obtain ⟨hvalid, hfree, htook⟩ := alloc_page_took w.bitmap hI.valid
  rcases page_fault_spec pat pge (w.heap p) page with ⟨b, hcall, hb⟩ | ⟨hpresent, hres, f, hret, hpos, hcall⟩
  · rw [hcall]
    refine ⟨_, 0, ls, rfl, hI.store_bitmap rfl ⟨rfl, rfl⟩ ?_ fun q hq => ?_⟩
    · rcases hb with rfl | ⟨rfl, -⟩
      · exact hI.valid
      · exact hvalid
    · rcases hb with rfl | ⟨rfl, -⟩
      · exact hq
      · exact hfree q hq
  rw [hcall]
  obtain ⟨f', hret', hlt, hwas, hnow⟩ := htook fun hz => by
    have htoNat : (allocPage w.bitmap).2.toNat = 4096 * f := hret
    rw [hz] at htoNat
    simp at htoNat
    omega
  obtain rfl : f' = f := by
    have htoNat : (allocPage w.bitmap).2.toNat = 4096 * f := hret
    omega
  have hbits := page_entry_bits f'
  let h' : Heap := { w.heap p with
    tabs := update (w.heap p).tabs page (4096 * f' + 7)
    bitmap := (allocPage w.bitmap).1 }
  have hnew : ∀ i, h'.tabs i = if i = page then 4096 * f' + 7 else (w.heap p).tabs i := fun i =>
    update_apply ..
  refine ⟨h', 0, ls, rfl, hI.store_fresh ?_ rfl (fun i hi => ?_) hvalid hfree (fun i hi => ?_) ?_⟩
  · refine tiled_rewrite (hI.tiled p) (fun i => ?_) ⟨rfl, rfl⟩
    rw [hnew]
    by_cases hi : i = page
    · subst hi
      rw [if_pos rfl]
      refine .inr ⟨reserved_ne_hdr hres, fun k hk => hk.rewrite (fun hz => hres ?_) hbits.2 hbits.1.2⟩
      rw [hz]
      rfl
    · exact .inl (if_neg hi)
  · rw [hnew, if_neg (by omega)]
  · rw [hnew]
    by_cases hi : i = page
    · rw [if_pos hi, entry_page f' hlt]
      exact .inr ⟨hbits.1.2, hwas, hnow⟩
    · exact .inl (if_neg hi)
  · have honly : ∀ i, h'.tabs i ≠ (w.heap p).tabs i → i = page := by
      intro i hne
      by_contra hi
      exact hne ((hnew i).trans (if_neg hi))
    intro i i' hne hne'
    rw [honly i hne, honly i' hne']

theorem Inv.ring_mapped (pat pge : Bool) {f : Nat} {edi : BitVec 32} (hI : Inv process w ls reg)
    (hx : Live ((w.heap p).heapBase / 4096) (ls p) x .used (2 * n + 1)) (hedi : edi.toNat = 4096 * f)
    (hf : f + n ≤ 2 ^ 20) (hsame : h'.heapBase = (w.heap p).heapBase ∧ h'.heapTop = (w.heap p).heapTop)
    (htabs : h'.tabs = userRingLoop (pteValidMask pat pge) n
      (userRingLoop (pteValidMask pat pge) n (w.heap p).tabs (x + 1) edi) (x + 1 + n) edi) (hvalid : h'.bitmap.Valid)
    (hfree : ∀ q, h'.bitmap.free q = true → w.bitmap.free q = true)
    (htook : ∀ q, f ≤ q → q < f + n → w.bitmap.free q = true ∧ h'.bitmap.free q = false) :
    Inv process (w.store p h') ls reg := by
  have ht := hI.tiled p
  obtain ⟨-, hblock, -, hend⟩ := ht.occurs hx.1
  have hring := ring_tabs pat pge (w.heap p).tabs hedi hf (by omega : x + 1 + 2 * n ≤ 2 ^ 20)
  rw [← htabs] at hring
  have hout : ∀ i, i ≤ x ∨ x + (2 * n + 1) ≤ i → h'.tabs i = (w.heap p).tabs i := by
    intro i hi
    rcases hring i with ⟨hlo, hhi, -⟩ | ⟨-, heq⟩
    · omega
    · exact heq
  have hin : ∀ i, x < i → i < x + (2 * n + 1) → Clean .used (h'.tabs i) := by
    intro i hlo hhi
    rcases hring i with ⟨-, -, j, -, heq⟩ | ⟨-, heq⟩
    · rw [heq]
      exact ⟨(page_entry_bits _).2, nofun, nofun⟩
    · rw [heq]
      exact hblock.2 i hlo hhi
  refine hI.store_fresh (changed_inside ht hx hin hout hsame).tiled hsame.1 (fun i hi => hout i ?_) hvalid hfree
    (fun i _ => ?_) ?_
  · unfold topPage at hi
    omega
  · rcases hring i with ⟨-, -, j, hj, heq⟩ | ⟨-, heq⟩
    · have hpages := htook (f + j) (by omega) (by omega)
      rw [heq, entry_page _ (by omega)]
      exact .inr ⟨(page_entry_bits _).1.2, hpages⟩
    · exact .inl heq
  · have hblockOf : ∀ i, h'.tabs i ≠ (w.heap p).tabs i → blockOf ((w.heap p).heapBase / 4096) (ls p) i = x := by
      intro i hne
      rcases hring i with ⟨hlo, hhi, -⟩ | ⟨-, heq⟩
      · exact blockOf_occurs ht.row hx.1 (by omega) (by omega)
      · exact absurd heq hne
    intro i i' hne hne'
    rw [hblockOf i hne, hblockOf i' hne']

theorem Inv.user_ring (pat pge : Bool) (hI : Inv process w ls reg) (p : Nat) (hsize : size.toNat < 2 ^ 31) :
    Kept process w p reg (userRing (pteValidMask pat pge) (w.heap p) size) := by
  unfold userRing
  simp only
  split_ifs with hpages hzero hwrap
  · exact hI.kept_same p 0
  · exact hI.kept_same p 0
  · exact hI.kept_same p 0
  have hdouble : (size <<< 1).toNat = 2 * size.toNat := by
    rw [BitVec.toNat_shiftLeft, shiftLeft_eq]
    omega
  obtain ⟨n, hn⟩ : ∃ n, size.toNat / 4096 = n := ⟨_, rfl⟩
  have hfor : pagesFor (size <<< 1).toNat = 2 * n + 1 := by
    unfold pagesFor
    omega
  rw [hn]
  rcases user_alloc_spec (hI.tiled p) clean_reserved (show (size <<< 1).toNat ≤ 0xFFFFE000 by omega) with
    ⟨hfail, -⟩ | ⟨x, h1, l1, hcall, hnew, -⟩
  · simp only [hfail, if_true]
    exact hI.kept_same p 0
  rw [hfor] at hnew
  have hI1 := hI.new_block hnew
  have hx : Live (h1.heapBase / 4096) l1 x .used (2 * n + 1) := by
    rw [hnew.changed.heapBase]
    exact (hnew.changed.live x _ _).mpr (.inr ⟨rfl, rfl, rfl⟩)
  obtain ⟨-, -, hlo, hend⟩ := hnew.changed.tiled.occurs hx.1
  obtain ⟨hptr, hnonzero⟩ := block_pointer (by omega : x < 0x80000)
  have hcount : (BitVec.ofNat 32 n).toNat = n := by
    rw [BitVec.toNat_ofNat]
    omega
  obtain ⟨hvalid, hfree, htook⟩ := alloc_pages_took h1.bitmap hI1.valid (BitVec.ofNat 32 n)
  simp only [hcall, if_neg hnonzero, hptr]
  split_ifs with hphys
  · -- No frames: the block is freed again.
    let h2 : Heap := { h1 with bitmap := (allocPages h1.bitmap (BitVec.ofNat 32 n)).1 }
    have hI2 : Inv process (w.store p h2) (update ls p l1) reg := by
      rw [← store_store w p h1]
      exact hI1.store_bitmap (by rw [store_heap_self]) (by rw [store_heap_self]; exact ⟨rfl, rfl⟩) hvalid hfree
    have hheader : BitVec.ofNat 32 (4096 * (x + 1)) = 0 ∨ HeaderOk ((w.store p h2).heap p)
        (headerIndex ((BitVec.ofNat 32 (4096 * (x + 1))).toNat / 4096)) := by
      rw [store_heap_self, hptr, headerIndex_succ (by omega)]
      exact .inr (.inl ⟨hlo, by unfold topPage; omega⟩)
    obtain ⟨h', eax, l', hfreed, -, hI', -⟩ := hI2.user_free p hheader
    rw [store_heap_self] at hfreed
    rw [hfreed]
    rw [store_store] at hI'
    exact ⟨h', 0, _, rfl, hI'⟩
  · obtain ⟨f, hret, hf, hrun⟩ := htook hphys
    rw [hcount] at hf hrun
    refine ⟨_, _, update ls p l1, rfl, ?_⟩
    rw [← store_store w p h1]
    have hx' : Live (((w.store p h1).heap p).heapBase / 4096) ((update ls p l1) p) x .used (2 * n + 1) := by
      rw [store_heap_self, update_self]
      exact hx
    exact hI1.ring_mapped pat pge hx' hret hf (by rw [store_heap_self]; exact ⟨rfl, rfl⟩) (by rw [store_heap_self])
      hvalid hfree hrun

end Kolibri.Shmem
