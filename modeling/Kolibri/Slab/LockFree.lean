import Kolibri.Slab.Places

/-! # Blocks are neither lost nor handed out twice

Only the thread that has the mutex takes blocks off a list, and other threads put blocks before its head.
-/

namespace Kolibri.Slab

open Function List

variable {τ : Type} [DecidableEq τ] {size : Nat} {pool : BitVec 32} {s : State τ}
  {free : BitVec 32 → List (BitVec 32)} {place : BitVec 32 → Place τ} {t : τ}

namespace Inv

/-! ## A block changes its place -/

variable {b eax ecx edx : BitVec 32}

theorem handled_update (h : Inv size pool free place s) {pc : Pc} {new : Place τ} (hb : b ∈ s.blocks)
    (hold : ∀ c, (s.pc t).Handles c → c = b) (hpc : ∀ c, pc.Handles c ↔ c = b ∧ new = .call t)
    (hplace : ∀ u, place b = .call u → u = t) (hnew : ∀ u, new = .call u → u = t) (u : τ) (c : BitVec 32) :
    ((s.goto t pc).pc u).Handles c ↔ c ∈ s.blocks ∧ update place b new c = .call u := by
  by_cases hu : u = t
  · rw [hu, goto_pc_self, hpc]
    by_cases hc : c = b
    · simp [hc, hb]
    · have hold' := mt (hold c) hc
      rw [h.handled] at hold'
      simpa [hc] using hold'
  rw [goto_pc_of_ne _ hu, h.handled]
  by_cases hc : c = b
  · have hplace' := mt (hplace u) hu
    have hnew' := mt (hnew u) hu
    simp [hc, hplace', hnew']
  · simp [hc]

theorem free_call (h : Inv size pool free place s) (hpc : s.pc t = .idle) (hheld : Held b s.log) :
    Inv size pool free (update place b (.call t)) ({ s with log := .free b :: s.log }.goto t (.freeRead b)) := by
  obtain ⟨hb, hplace⟩ := (h.held b).mp hheld
  refine ⟨h.page, h.block, h.apart, h.lists, ?_, ?_, ?_, ?_, ?_, ?_, ?_, h.log.freed b⟩
  · exact fun p hp => h.listed_update (by simp [hplace]) (by simp) hp
  · exact fun c hc p => h.inPage_update (by simp) hc p
  · intro c
    change b ≠ c ∧ Held c s.log ↔ _
    rw [h.held c]
    by_cases hc : c = b
    · simp [hc]
    · simp [hc, Ne.symm hc]
  · refine h.handled_update hb (fun c hc => ?_) (fun c => ?_) (fun u hu => ?_) fun u hu => ?_
    · rw [hpc] at hc
      exact hc.elim
    · simp [Pc.Handles, eq_comm]
    · rw [hplace] at hu
      cases hu
    · exact (Place.call.inj hu).symm
  · exact h.locked_goto (by rw [hpc]; rfl)
  · exact thread_goto trivial fun u _ => h.thread u
  · exact fun e he => h.linked_goto (by simp [hpc]) he

theorem leave_block (h : Inv size pool free place s) (hpc : s.pc t = .leave b) (hne : b ≠ 0) :
    Inv size pool free (update place b .caller)
      ({ s with lock := none, log := .alloc b :: s.log }.goto t .idle) := by
  obtain ⟨hb, hplace⟩ := (h.handled t b).mp (by rw [hpc]; exact ⟨rfl, hne⟩)
  have hnot : ¬ Held b s.log := by
    rw [h.held, hplace]
    simp
  have hlock : s.lock = some t := (h.locked t).mp (by rw [hpc]; rfl)
  refine ⟨h.page, h.block, h.apart, h.lists, ?_, ?_, ?_, ?_, ?_, ?_, ?_, h.log.returned hnot⟩
  · exact fun p hp => h.listed_update (by simp [hplace]) (by simp) hp
  · exact fun c hc p => h.inPage_update (by simp) hc p
  · intro c
    change b = c ∨ Held c s.log ↔ _
    rw [h.held c]
    by_cases hc : c = b
    · simp [hc, hb]
    · simp [hc, Ne.symm hc]
  · refine h.handled_update hb (fun c hc => ?_) (fun c => ?_) (fun u hu => ?_) fun u hu => ?_
    · rw [hpc] at hc
      exact hc.1.symm
    · simp [Pc.Handles]
    · rw [hplace] at hu
      exact (Place.call.inj hu).symm
    · cases hu
  · intro u
    by_cases hu : u = t
    · rw [hu, goto_pc_self]
      simp [Pc.inside]
    · rw [goto_pc_of_ne _ hu, h.locked u, hlock]
      simp [Ne.symm hu]
  · exact thread_goto trivial fun u _ => h.thread u
  · exact fun e he => h.linked_goto (by simp [hpc]) he

theorem pop (hsize : 1 ≤ size) (h : Inv size pool free place s) (hpc : s.pc t = .exchange edx eax ecx)
    (hhead : s.words (edx - 8#32) = eax) :
    ∃ free, Inv size pool free (update place eax (.call t)) ((s.store (edx - 8#32) ecx).goto t (.leave eax)) := by
  have hok := h.thread t
  rw [hpc] at hok
  obtain ⟨p, hp, rfl, hmem, hnext⟩ := hok
  rw [end_sub_8] at hhead ⊢
  obtain ⟨hb, hplace⟩ := (h.listed p hp eax).mp hmem
  have hne := h.block_ne_zero hb
  obtain ⟨l, hl, hrest⟩ : ∃ l, free p = eax :: l ∧ Leads s.words (· ≠ 0) ecx l 0 := by
    have hlist := h.lists p hp
    rw [FreeList, hhead] at hlist
    generalize free p = l' at hlist
    cases hlist with
    | stop hstop => exact absurd hne hstop
    | step _ hrest => exact ⟨_, rfl, by rwa [hnext] at hrest⟩
  have hnodup : (eax :: l).Nodup := by
    rw [← hl]
    exact (h.lists p hp).nodup
  refine ⟨update free p l, h.page, h.block, h.apart, ?_, ?_, ?_, ?_, ?_, ?_, ?_, ?_, h.log⟩
  · rw [goto_words, store_words]
    refine h.lists_update hsize hp hrest fun b hb' => ?_
    exact ((h.listed p hp b).mp (by rw [hl]; exact mem_cons_of_mem _ hb')).1
  · intro q hq c
    rw [goto_blocks, store_blocks]
    by_cases hc : c = eax
    · -- The block is off its list, and was on no other one.
      have hq' : eax ∉ update free p l q := by
        by_cases hqp : q = p
        · rw [hqp, update_self]
          exact (nodup_cons.mp hnodup).1
        · rw [update_of_ne hqp, h.listed q hq, hplace]
          simp [Ne.symm hqp]
      simp [hq', hc]
    · rw [update_of_ne hc, ← h.listed q hq]
      by_cases hqp : q = p
      · simp [hqp, hl, hc]
      · simp [hqp]
  · exact fun c hc q => h.inPage_update (by simp) hc q
  · intro c
    change Held c s.log ↔ _
    rw [h.held]
    by_cases hc : c = eax
    · simp [hc, hplace]
    · simp [hc]
  · refine h.handled_update hb (fun c hc => ?_) (fun c => ?_) (fun u hu => ?_) fun u hu => ?_
    · rw [hpc] at hc
      exact hc.elim
    · constructor
      · rintro ⟨rfl, -⟩
        exact ⟨rfl, rfl⟩
      · rintro ⟨rfl, -⟩
        exact ⟨rfl, hne⟩
    · rw [hplace] at hu
      cases hu
    · exact (Place.call.inj hu).symm
  · exact h.locked_goto (by rw [hpc]; rfl)
  · rw [goto_words, goto_pages, store_words, store_pages]
    refine thread_goto trivial fun u hu => h.thread_update hsize hp fun hin => ?_
    exact absurd (h.eq_of_inside (by rw [hpc]; rfl) hin) hu
  · intro e he
    rw [goto_words, store_words, h.linked_update hp he]
    exact h.linked_goto (by simp [hpc]) he

theorem push (hsize : 1 ≤ size) (h : Inv size pool free place s) (hpc : s.pc t = .freeExchange ecx eax)
    (hhead : s.words (headOf ecx) = eax) :
    ∃ free place, Inv size pool free place ((s.store (headOf ecx) ecx).goto t .idle) := by
  obtain ⟨hb, hplace⟩ := (h.handled t ecx).mp (by rw [hpc]; rfl)
  have hnext : s.words ecx = eax := by
    have hok := h.thread t
    rwa [hpc] at hok
  obtain ⟨p, hp, hblock⟩ := h.block ecx hb
  rw [headOf_eq (h.page p hp) hblock] at hhead ⊢
  have hnew : Leads s.words (· ≠ 0) ecx (ecx :: free p) 0 := by
    refine .step (h.block_ne_zero hb) ?_
    rw [hnext, ← hhead]
    exact h.lists p hp
  have hnot (q : BitVec 32) (hq : q ∈ s.pages) : ecx ∉ free q := by
    rw [h.listed q hq, hplace]
    simp
  refine ⟨update free p (ecx :: free p), update place ecx (.list p), h.page, h.block, h.apart, ?_, ?_, ?_, ?_, ?_, ?_, ?_,
    ?_, h.log⟩
  · rw [goto_words, store_words]
    refine h.lists_update hsize hp hnew fun b hb' => ?_
    rcases mem_cons.mp hb' with rfl | hb'
    · exact hb
    · exact ((h.listed p hp b).mp hb').1
  · intro q hq c
    rw [goto_blocks, store_blocks]
    by_cases hc : c = ecx
    · by_cases hqp : q = p
      · simp [hqp, hc, hb]
      · simp [hqp, hc, hnot q hq, Ne.symm hqp]
    · rw [update_of_ne hc, ← h.listed q hq]
      by_cases hqp : q = p
      · simp [hqp, hc]
      · simp [hqp]
  · intro c hc q hq
    by_cases hce : c = ecx
    · rw [hce, update_self] at hq
      cases hq
      rw [hce]
      exact ⟨hp, hblock⟩
    · rw [update_of_ne hce] at hq
      exact h.inPage c hc q hq
  · intro c
    change Held c s.log ↔ _
    rw [h.held]
    by_cases hc : c = ecx
    · simp [hc, hplace]
    · simp [hc]
  · refine h.handled_update hb (fun c hc => ?_) (fun c => ?_) (fun u hu => ?_) fun u hu => ?_
    · rw [hpc] at hc
      exact hc.symm
    · simp [Pc.Handles]
    · rw [hplace] at hu
      exact (Place.call.inj hu).symm
    · cases hu
  · exact h.locked_goto (by rw [hpc]; rfl)
  · rw [goto_words, goto_pages, store_words, store_pages]
    exact thread_goto trivial fun u _ => h.thread_update hsize hp fun _ b hb' => mem_cons_of_mem _ hb'
  · intro e he
    rw [goto_words, store_words, h.linked_update hp he]
    exact h.linked_goto (by simp [hpc]) he

/-! ## A new page -/

theorem link (hsize : 1 ≤ size) (h : Inv size pool free place s) (hpc : s.pc t = .link edx eax) :
    Inv size pool free place ((s.store (edx - 4#32) eax).goto t (.setUp eax)) := by
  have hok := h.thread t
  rw [hpc] at hok
  obtain ⟨hend, hpage, hnew⟩ := hok
  have hgoto : Inv size pool free place (s.goto t (.setUp eax)) :=
    h.goto hpc rfl (fun _ => Iff.rfl) (by simp) ⟨hpage, hnew⟩
  refine hgoto.store (fun p hp => h.head_ne_link hp hend) (fun e _ _ => ⟨t, goto_pc_self ..⟩) (fun p hp b hb => ?_)
    fun u v hu => ?_
  · exact h.inBlock_ne_link ((h.listed p hp b).mp hb).1 (inBlock_self hsize b) hend
  · obtain ⟨hmem, -⟩ := (hgoto.handled u (edx - 4#32)).mp (by rw [hu]; rfl)
    exact h.inBlock_ne_link hmem (inBlock_self hsize _) hend rfl

theorem setUpDone (hsize : 1 ≤ size) (h : Inv size pool free place s) {page : BitVec 32} {l : List (BitVec 32)}
    (hpc : s.pc t = .setUp page) (hlink : s.words (page + 0xFFC#32) = 0) (hlist : FreeList s.words page l)
    (hblock : ∀ b ∈ page :: l, BlockOf size page b) (hapart : (page :: l).Pairwise (Apart size)) :
    ∃ free place, Inv size pool free place
      ({ s with pages := page :: s.pages, blocks := page :: l ++ s.blocks }.goto t (.leave page)) := by
  have hok := h.thread t
  rw [hpc] at hok
  obtain ⟨hpage, hnew⟩ := hok
  -- The blocks of the page are not among the others.
  have hother {b c : BitVec 32} (hb : b ∈ page :: l) (hc : c ∈ s.blocks) : c ≠ b :=
    h.block_ne_inPage hsize hpage hnew (inPage_of_blockOf hsize (hblock b hb)) hc
  have hfirst : page ∉ l := by
    intro hmem
    have := rel_of_pairwise_cons hapart hmem
    rcases this with hlt | hlt <;> omega
  have hq {q : BitVec 32} (hq : q ∈ s.pages) : q ≠ page := by
    rintro rfl
    exact hnew hq
  let place' : BitVec 32 → Place τ := fun b => if b = page then .call t else if b ∈ l then .list page else place b
  have hplace {b : BitVec 32} (hb : b ∈ s.blocks) : place' b = place b := by
    have hne : b ≠ page := hother mem_cons_self hb
    have hnot : b ∉ l := fun hmem => hother (mem_cons_of_mem _ hmem) hb rfl
    simp [place', hne, hnot]
  have hinList {b : BitVec 32} (hb : b ∈ l) : place' b = .list page := by
    have hne : b ≠ page := by
      rintro rfl
      exact hfirst hb
    simp [place', hne, hb]
  have hcall : place' page = .call t := by simp [place']
  have hout (u : τ) (hu : u ≠ t) : (s.pc u).inside = false := by
    by_contra hin
    exact hu (h.eq_of_inside (by rw [hpc]; rfl) (by simpa using hin))
  have hmem {b : BitVec 32} : b ∈ page :: l ++ s.blocks ↔ b = page ∨ b ∈ l ∨ b ∈ s.blocks := by simp
  -- All other places have the blocks that they had.
  have hrest {b : BitVec 32} {x : Place τ} (hx : x ≠ .call t) (hx' : x ≠ .list page) :
      b ∈ page :: l ++ s.blocks ∧ place' b = x ↔ b ∈ s.blocks ∧ place b = x := by
    rw [hmem]
    refine ⟨?_, fun hb => ⟨.inr (.inr hb.1), (hplace hb.1).trans hb.2⟩⟩
    rintro ⟨rfl | hb | hb, hb'⟩
    · exact absurd (hcall.symm.trans hb').symm hx
    · exact absurd ((hinList hb).symm.trans hb').symm hx'
    · exact ⟨hb, (hplace hb).symm.trans hb'⟩
  refine ⟨update free page l, place', ?_, ?_, ?_, ?_, ?_, ?_, ?_, ?_, ?_, ?_, ?_, h.log⟩
  · rw [goto_pages, forall_mem_cons]
    exact ⟨hpage, h.page⟩
  · intro b hb
    rcases mem_append.mp hb with hb | hb
    · exact ⟨page, mem_cons_self, hblock b hb⟩
    · obtain ⟨p, hp, hbp⟩ := h.block b hb
      exact ⟨p, mem_cons_of_mem _ hp, hbp⟩
  · intro b hb c hc hne
    rcases mem_append.mp hb with hb | hb <;> rcases mem_append.mp hc with hc | hc
    · exact hapart.forall hb hc hne
    · obtain ⟨q, hqmem, hcq⟩ := h.block c hc
      exact apart_of_pages hpage (h.page q hqmem) (hq hqmem).symm (hblock b hb) hcq
    · obtain ⟨q, hqmem, hbq⟩ := h.block b hb
      exact apart_of_pages (h.page q hqmem) hpage (hq hqmem) hbq (hblock c hc)
    · exact h.apart b hb c hc hne
  · intro p hp
    rcases mem_cons.mp hp with rfl | hp
    · rwa [update_self]
    · rw [update_of_ne (hq hp)]
      exact h.lists p hp
  · intro p hp b
    rw [goto_blocks]
    rcases mem_cons.mp hp with rfl | hp
    · rw [update_self, hmem]
      refine ⟨fun hb => ⟨.inr (.inl hb), hinList hb⟩, ?_⟩
      rintro ⟨rfl | hb | hb, hb'⟩
      · rw [hcall] at hb'
        cases hb'
      · exact hb
      · rw [hplace hb] at hb'
        exact absurd (h.inPage b hb p hb').1 hnew
    · rw [update_of_ne (hq hp), h.listed p hp, hrest (by simp) (by simpa using hq hp)]
  · intro b hb p hb'
    rcases hmem.mp hb with rfl | hb | hb
    · rw [hcall] at hb'
      cases hb'
    · rw [hinList hb] at hb'
      cases hb'
      exact ⟨mem_cons_self, hblock b (mem_cons_of_mem _ hb)⟩
    · rw [hplace hb] at hb'
      obtain ⟨hp, hbp⟩ := h.inPage b hb p hb'
      exact ⟨mem_cons_of_mem _ hp, hbp⟩
  · intro b
    rw [goto_blocks, hrest (by simp) (by simp)]
    exact h.held b
  · intro u b
    rw [goto_blocks]
    by_cases hu : u = t
    · rw [hu, goto_pc_self, hmem]
      refine ⟨?_, ?_⟩
      · rintro ⟨rfl, -⟩
        exact ⟨.inl rfl, hcall⟩
      rintro ⟨rfl | hb | hb, hb'⟩
      · exact ⟨rfl, hpage.ne_zero⟩
      · rw [hinList hb] at hb'
        cases hb'
      · rw [hplace hb] at hb'
        have hnone := (h.handled t b).mpr ⟨hb, hb'⟩
        rw [hpc] at hnone
        exact hnone.elim
    · rw [goto_pc_of_ne _ hu, hrest (by simpa using hu) (by simp)]
      exact h.handled u b
  · exact h.locked_goto (by rw [hpc]; rfl)
  · exact thread_goto trivial fun u hu => threadOk_outside (h.thread u) (hout u hu)
  · intro e he
    have hold : s.words (e - 4#32) = 0 ∨ s.words (e - 4#32) ∈ s.pages ∨
        ∃ u, s.pc u = .setUp (s.words (e - 4#32)) := by
      rcases he with rfl | ⟨p, hp, rfl⟩
      · exact h.linked e (.inl rfl)
      · rcases mem_cons.mp hp with rfl | hp
        · rw [end_sub_4]
          exact .inl hlink
        · exact h.linked _ (.inr ⟨p, hp, rfl⟩)
    obtain hzero | hp | ⟨u, hu⟩ := hold
    · exact .inl hzero
    · exact .inr (.inl (mem_cons_of_mem _ hp))
    · -- The link is to the page itself.
      by_cases hut : u = t
      · rw [hut, hpc] at hu
        rw [goto_words, ← Pc.setUp.inj hu]
        exact .inr (.inl mem_cons_self)
      · have hout' := hout u hut
        rw [hu] at hout'
        cases hout'

end Inv

/-! ## Every step -/

theorem go_inv (hsize : 1 ≤ size) (h : Inv size pool free place s) (hlock : s.pc t = .takeLock → s.lock = none) :
    ∃ free place, Inv size pool free place (s.go pool t) := by
  have hok := h.thread t
  unfold State.go
  cases hpc : s.pc t with
  | idle | newPage _ | setUp _ => exact ⟨free, place, h⟩
  | takeLock => exact ⟨free, place, h.takeLock hpc (hlock hpc)⟩
  | pageLoop edx =>
    rw [hpc] at hok
    refine ⟨free, place, ?_⟩
    dsimp only
    split_ifs with hlast
    · exact h.goto hpc rfl (fun _ => Iff.rfl) (by simp) hok
    -- No other thread is setting up a page.
    obtain hzero | hmem | ⟨u, hu⟩ := h.linked edx hok
    · exact absurd hzero hlast
    · exact h.goto hpc rfl (fun _ => Iff.rfl) (by simp) ⟨_, hmem, rfl⟩
    · have hut : u = t := h.eq_of_inside (by rw [hpc]; rfl) (by rw [hu]; rfl)
      rw [hut, hpc] at hu
      cases hu
  | readHead edx =>
    rw [hpc] at hok
    obtain ⟨p, hp, rfl⟩ := hok
    refine ⟨free, place, ?_⟩
    dsimp only
    split_ifs with hempty
    · exact h.goto hpc rfl (fun _ => Iff.rfl) (by simp) (.inr ⟨p, hp, rfl⟩)
    · refine h.goto hpc rfl (fun _ => Iff.rfl) (by simp) ⟨p, hp, rfl, ?_⟩
      rw [end_sub_8] at hempty ⊢
      exact (h.lists p hp).head_mem hempty
  | readNext edx eax =>
    rw [hpc] at hok
    obtain ⟨p, hp, hedx, hmem⟩ := hok
    exact ⟨free, place, h.goto hpc rfl (fun _ => Iff.rfl) (by simp) ⟨p, hp, hedx, hmem, rfl⟩⟩
  | exchange edx eax ecx =>
    dsimp only
    split_ifs with hhead
    · obtain ⟨free', h'⟩ := h.pop hsize hpc hhead
      exact ⟨free', _, h'⟩
    · rw [hpc] at hok
      obtain ⟨p, hp, hedx, -⟩ := hok
      exact ⟨free, place, h.goto hpc rfl (fun _ => Iff.rfl) (by simp) ⟨p, hp, hedx⟩⟩
  | link edx eax => exact ⟨free, place, h.link hsize hpc⟩
  | leave eax =>
    dsimp only
    split_ifs with hzero
    · -- There is no memory for a page.
      have hlock : s.lock = some t := (h.locked t).mp (by rw [hpc]; rfl)
      refine ⟨free, place, h.relock (by simp [Pc.inside]) (fun u hu => ?_) (fun b => ?_) (by simp [hpc]) trivial⟩
      · rw [h.locked u, hlock]
        simp [Ne.symm hu]
      · rw [hpc, hzero]
        exact ⟨False.elim, fun hb => hb.2 hb.1.symm⟩
    · exact ⟨free, _, h.leave_block hpc hzero⟩
  | freeRead ecx =>
    exact ⟨free, place, h.goto hpc rfl (fun _ => Iff.rfl) (by simp) trivial⟩
  | freeWrite ecx eax =>
    obtain ⟨hb, hplace⟩ := (h.handled t ecx).mp (by rw [hpc]; rfl)
    have hstore : Inv size pool free place (s.store ecx eax) := by
      refine h.store_block hb (by simp [hplace]) (fun u v hu => ?_) (inBlock_self hsize ecx)
      -- The block is in the hands of this thread only.
      obtain ⟨-, hplace'⟩ := (h.handled u ecx).mp (by rw [hu]; rfl)
      rw [hplace] at hplace'
      cases hplace'
      rw [hpc] at hu
      cases hu
    exact ⟨free, place, hstore.goto hpc rfl (fun _ => Iff.rfl) (by simp) (update_self ..)⟩
  | freeExchange ecx eax =>
    dsimp only
    split_ifs with hhead
    · exact h.push hsize hpc hhead
    · exact ⟨free, place, h.goto hpc rfl (fun _ => Iff.rfl) (by simp) trivial⟩

theorem step_inv (hsize : 1 ≤ size) (s : State τ) (e : Event τ)
    (h : ∃ free place, Inv size pool free place s) (he : Enabled size pool s e) :
    ∃ free place, Inv size pool free place (step pool s e).1 := by
  obtain ⟨free, place, h⟩ := h
  cases e with
  | alloc t => exact ⟨free, place, h.goto he rfl (fun _ => Iff.rfl) (by simp) trivial⟩
  | free t block => exact ⟨free, _, h.free_call he.1 he.2⟩
  | go t => exact go_inv hsize h he
  | kernelAlloc t page =>
    obtain ⟨⟨eax, hpc⟩, hpage⟩ := he
    have hok := h.thread t
    rw [hpc] at hok
    simp only [step, hpc]
    refine ⟨free, place, ?_⟩
    split_ifs with hzero
    · exact h.goto hpc rfl (fun b => ⟨fun hb => hb.2 hb.1.symm, False.elim⟩) (by simp) trivial
    · exact h.goto hpc rfl (fun _ => Iff.rfl) (by simp) ⟨hok, hpage.resolve_left hzero⟩
  | setUpWrite t a v =>
    obtain ⟨page, hpc, ha⟩ := he
    have hok := h.thread t
    rw [hpc] at hok
    exact ⟨free, place, h.setUpWrite hsize hok.1 hok.2 ha⟩
  | setUpDone t l =>
    obtain ⟨page, hpc, hlink, hlist, hblock, hapart⟩ := he
    simp only [step, hpc]
    exact h.setUpDone hsize hpc hlink hlist hblock hapart
  | write block a v =>
    obtain ⟨hb, hplace⟩ := (h.held block).mp he.1
    refine ⟨free, place, h.store_block hb (by simp [hplace]) (fun t eax hpc => ?_) he.2⟩
    obtain ⟨-, hcall⟩ := (h.handled t block).mp (by rw [hpc]; rfl)
    rw [hplace] at hcall
    cases hcall

/-- In every interleaving no block is lost or handed out twice. -/
theorem slab_interleavings_good (hsize : 4 ≤ size) (hstart : Start size pool s) {events : List (Event τ)}
    (hrun : Run.Allowed (step pool) (Enabled size pool) s events) : Good (Run.final (step pool) s events) := by
  have hsize' : 1 ≤ size := by omega
  obtain ⟨free, place, h⟩ := Run.final_inv (step_inv hsize') (Inv.start hsize' hstart) hrun
  exact h.good

def onePage : State Bool where
  words a := if a = 0x8000FFFC#32 then 0x80200000#32 else if a = 0x80200FF8#32 then 0x80200020#32 else 0#32
  pc _ := .idle
  lock := none
  pages := [0x80200000#32]
  blocks := [0x80200000#32, 0x80200020#32]
  log := [.alloc 0x80200000#32]

theorem onePage_start : Start 32 0x80010000#32 onePage := by
  have hlist : FreeList onePage.words 0x80200000#32 [0x80200020#32] := .step (by decide) (.stop (by decide))
  refine ⟨fun _ => rfl, rfl, ?_, ?_, ?_, ?_, ?_, ?_, ?_, ?_⟩
  · simp only [onePage, forall_mem_singleton]
    exact ⟨by decide, by decide, by simp [InPage]⟩
  · rintro e (rfl | ⟨p, hp, rfl⟩)
    · exact .inr (by decide)
    · simp only [onePage, mem_singleton] at hp
      rw [hp]
      exact .inl (by decide)
  · simp [onePage, BlockOf]
  · simp [onePage, Apart]
  · simp only [onePage, forall_mem_singleton]
    exact ⟨_, hlist, by simp [BlockOf, Held]⟩
  · intro b hb
    simp only [onePage, mem_cons, not_mem_nil, or_false] at hb
    rcases hb with rfl | rfl
    · exact .inl (.inl rfl)
    · exact .inr ⟨_, mem_singleton_self _, _, hlist, mem_singleton_self _⟩
  · rintro b (rfl | hb)
    · exact mem_cons_self
    · exact hb.elim
  · intro b l1 l2 l3 heq
    have hlen := congrArg List.length heq
    simp [onePage] at hlen
    omega

def disturbed : List (Event Bool) :=
  [.alloc false, .go false, .go false, .go false, .free true 0x80200000#32, .go true, .go true, .go true,
    .go false, .go false, .go false, .go false, .go false, .go false]

theorem slab_interleavings_good_disturbed :
    Start 32 0x80010000#32 onePage ∧ Run.Allowed (step 0x80010000#32) (Enabled 32 0x80010000#32) onePage disturbed ∧
      (Run.final (step 0x80010000#32) onePage disturbed).log =
        [.alloc 0x80200000#32, .free 0x80200000#32, .alloc 0x80200000#32] ∧
      Good (Run.final (step 0x80010000#32) onePage disturbed) := by
  have hrun : Run.Allowed (step 0x80010000#32) (Enabled 32 0x80010000#32) onePage disturbed := by
    refine ⟨rfl, ?_, ?_, ?_, ?_, ?_, ?_, ?_, ?_, ?_, ?_, ?_, ?_, ?_, trivial⟩
    on_goal 4 => exact ⟨rfl, .inl rfl⟩
    all_goals
      change _ = _ → _ = _
      decide +kernel
  exact ⟨onePage_start, hrun, by decide +kernel, slab_interleavings_good (by decide) onePage_start hrun⟩

end Kolibri.Slab
