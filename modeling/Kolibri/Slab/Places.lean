import Kolibri.Slab.Threads

/-! # Where the blocks are

With a caller, on the list of its page, or in a call.
-/

namespace Kolibri.Slab

open Function

variable {τ : Type} {size : Nat} {pool : BitVec 32} {s : State τ}
  {free : BitVec 32 → List (BitVec 32)}

/-! ## Addresses -/

theorem end_sub_8 (p : BitVec 32) : p + 0x1000#32 - 8#32 = p + 0xFF8#32 := by bv_omega

theorem end_sub_4 (p : BitVec 32) : p + 0x1000#32 - 4#32 = p + 0xFFC#32 := by bv_omega

variable {p b q a c : BitVec 32} {log : List Call} {pages : List (BitVec 32)} {pc : Pc} {words : Words}

theorem PageOk.toNat_head (h : PageOk pool p) : (p + 0xFF8#32).toNat = p.toNat + 0xFF8 := by
  have haligned := h.aligned
  bv_omega

theorem PageOk.toNat_link (h : PageOk pool p) : (p + 0xFFC#32).toNat = p.toNat + 0xFFC := by
  have haligned := h.aligned
  bv_omega

theorem toNat_or_fff (b : BitVec 32) : (b ||| 0xFFF#32).toNat = b.toNat / 0x1000 * 0x1000 + 0xFFF := by
  have hor : b.toNat / 2 ^ 12 * 2 ^ 12 + 0xFFF = (b.toNat / 2 ^ 12) <<< 12 ||| 0xFFF := by
    rw [← Nat.shiftLeft_add_eq_or_of_lt (by decide), Nat.shiftLeft_eq]
  rw [BitVec.toNat_or]
  change _ = b.toNat / 2 ^ 12 * 2 ^ 12 + 0xFFF
  rw [hor]
  apply Nat.eq_of_testBit_eq
  intro i
  have hlow : Nat.testBit 0xFFF i = decide (i < 12) := Nat.testBit_two_pow_sub_one 12 i
  simp only [Nat.testBit_or, Nat.testBit_shiftLeft, BitVec.toNat_ofNat, Nat.testBit_div_two_pow]
  rw [hlow]
  by_cases hi : i < 12
  · simp [hi]
  · simp [hi, Nat.sub_add_cancel (Nat.le_of_not_lt hi), Nat.le_of_not_lt hi]

theorem headOf_eq (hp : PageOk pool p) (hb : BlockOf size p b) : headOf b = p + 0xFF8#32 := by
  obtain ⟨hfrom, hto⟩ := hb
  have haligned := hp.aligned
  have hor := toNat_or_fff b
  unfold headOf
  generalize b ||| 0xFFF#32 = x at hor
  bv_omega

theorem page_eq_of_blockOf (hp : PageOk pool p) (hq : PageOk pool q) (hsize : 1 ≤ size) (hbp : BlockOf size p b)
    (hbq : BlockOf size q b) : p = q := by
  have hp' := hp.aligned
  have hq' := hq.aligned
  obtain ⟨hfrom, hto⟩ := hbp
  obtain ⟨hfrom', hto'⟩ := hbq
  exact BitVec.eq_of_toNat_eq (by omega)

theorem page_eq_of_inPage (hp : PageOk pool p) (hq : PageOk pool q) (hap : InPage p a) (haq : InPage q a) :
    p = q := by
  have hp' := hp.aligned
  have hq' := hq.aligned
  obtain ⟨hfrom, hto⟩ := hap
  obtain ⟨hfrom', hto'⟩ := haq
  exact BitVec.eq_of_toNat_eq (by omega)

instance : Std.Symm (Apart size) := ⟨fun _ _ => Or.symm⟩

theorem apart_of_pages (hp : PageOk pool p) (hq : PageOk pool q) (hne : p ≠ q) (hbp : BlockOf size p b)
    (hcq : BlockOf size q c) : Apart size b c := by
  have hp' := hp.aligned
  have hq' := hq.aligned
  have hne' := BitVec.toNat_ne.mp hne
  obtain ⟨hfrom, hto⟩ := hbp
  obtain ⟨hfrom', hto'⟩ := hcq
  rw [Apart]
  omega

theorem inPage_of_blockOf (hsize : 1 ≤ size) (h : BlockOf size p b) : InPage p b := by
  obtain ⟨hfrom, hto⟩ := h
  exact ⟨hfrom, by omega⟩

theorem inBlock_self (hsize : 1 ≤ size) (b : BitVec 32) : InBlock size b b := ⟨le_refl _, by omega⟩

/-! ## The calls -/

theorem free_mem_of_not_held {l1 l2 : List Call} (h : ¬ Held b (l1 ++ .alloc b :: l2)) : .free b ∈ l1 := by
  induction l1 with
  | nil => exact absurd (.inl rfl) h
  | cons c l1 ih =>
    cases c with
    | alloc d => exact List.mem_cons_of_mem _ (ih fun hheld => h (.inr hheld))
    | free d =>
      by_cases hd : d = b
      · rw [hd]
        exact List.mem_cons_self
      · exact List.mem_cons_of_mem _ (ih fun hheld => h ⟨hd, hheld⟩)

theorem Alternates.returned (h : Alternates log) (hb : ¬ Held b log) : Alternates (.alloc b :: log) := by
  intro c l1 l2 l3 heq
  cases l1 with
  | nil =>
    obtain ⟨rfl, rfl⟩ := heq
    exact free_mem_of_not_held hb
  | cons x l1 =>
    simp only [List.cons_append, List.cons.injEq] at heq
    exact h c l1 l2 l3 (by simpa using heq.2)

theorem Alternates.freed (h : Alternates log) (b : BitVec 32) : Alternates (.free b :: log) := by
  intro c l1 l2 l3 heq
  cases l1 with
  | nil => simp at heq
  | cons x l1 =>
    simp only [List.cons_append, List.cons.injEq] at heq
    exact h c l1 l2 l3 (by simpa using heq.2)

/-! ## The invariant -/

inductive Place (τ : Type)
  | caller
  | list (page : BitVec 32)
  | call (t : τ)

/-- What a thread knows of its registers. -/
def ThreadOk (pool : BitVec 32) (free : BitVec 32 → List (BitVec 32)) (words : Words) (pages : List (BitVec 32)) :
    Pc → Prop
  | .pageLoop edx => IsEnd pool pages edx
  | .readHead edx => ∃ p ∈ pages, edx = p + 0x1000#32
  | .readNext edx eax => ∃ p ∈ pages, edx = p + 0x1000#32 ∧ eax ∈ free p
  | .exchange edx eax ecx => ∃ p ∈ pages, edx = p + 0x1000#32 ∧ eax ∈ free p ∧ words eax = ecx
  | .newPage eax => IsEnd pool pages eax
  | .link edx eax => IsEnd pool pages edx ∧ PageOk pool eax ∧ eax ∉ pages
  | .setUp page => PageOk pool page ∧ page ∉ pages
  | .freeExchange ecx eax => words ecx = eax
  | .idle | .takeLock | .leave _ | .freeRead _ | .freeWrite _ _ => True

theorem threadOk_outside {free' : BitVec 32 → List (BitVec 32)} {pages' : List (BitVec 32)}
    (h : ThreadOk pool free words pages pc) (hout : pc.inside = false) : ThreadOk pool free' words pages' pc := by
  cases pc with
  | idle | takeLock | freeRead _ | freeWrite _ _ => trivial
  | freeExchange _ _ => exact h
  | _ => cases hout

/-- `free` gives the free blocks of each page, and `place` says where each block is. -/
structure Inv (size : Nat) (pool : BitVec 32) (free : BitVec 32 → List (BitVec 32)) (place : BitVec 32 → Place τ)
    (s : State τ) : Prop where
  page : ∀ p ∈ s.pages, PageOk pool p
  block : ∀ b ∈ s.blocks, ∃ p ∈ s.pages, BlockOf size p b
  apart : ∀ b ∈ s.blocks, ∀ c ∈ s.blocks, b ≠ c → Apart size b c
  lists : ∀ p ∈ s.pages, FreeList s.words p (free p)
  listed : ∀ p ∈ s.pages, ∀ b, b ∈ free p ↔ b ∈ s.blocks ∧ place b = .list p
  inPage : ∀ b ∈ s.blocks, ∀ p, place b = .list p → p ∈ s.pages ∧ BlockOf size p b
  held : ∀ b, Held b s.log ↔ b ∈ s.blocks ∧ place b = .caller
  handled : ∀ t b, (s.pc t).Handles b ↔ b ∈ s.blocks ∧ place b = .call t
  locked : ∀ t, (s.pc t).inside = true ↔ s.lock = some t
  thread : ∀ t, ThreadOk pool free s.words s.pages (s.pc t)
  linked : ∀ e, IsEnd pool s.pages e →
    s.words (e - 4#32) = 0 ∨ s.words (e - 4#32) ∈ s.pages ∨ ∃ t, s.pc t = .setUp (s.words (e - 4#32))
  log : Alternates s.log

variable {place : BitVec 32 → Place τ}

namespace Inv

open Classical in
theorem start (hsize : 1 ≤ size) (h : Start size pool s) : ∃ free place, Inv size pool free place s := by
  have hlists : ∀ p, ∃ free, p ∈ s.pages → FreeList s.words p free ∧
      ∀ b ∈ free, b ∈ s.blocks ∧ BlockOf size p b ∧ ¬ Held b s.log := by
    intro p
    by_cases hp : p ∈ s.pages
    · obtain ⟨free, hfree⟩ := h.lists p hp
      exact ⟨free, fun _ => hfree⟩
    · exact ⟨[], fun hp' => absurd hp' hp⟩
  choose free hfree using hlists
  let place : BitVec 32 → Place τ := fun b => if hb : ∃ p ∈ s.pages, b ∈ free p then .list hb.choose else .caller
  have hlist {b p : BitVec 32} (hp : p ∈ s.pages) (hb : b ∈ free p) : place b = .list p := by
    have hex : ∃ q ∈ s.pages, b ∈ free q := ⟨p, hp, hb⟩
    have hchosen := hex.choose_spec
    have heq : hex.choose = p := page_eq_of_blockOf (h.page _ hchosen.1) (h.page p hp) hsize
      ((hfree _ hchosen.1).2 b hchosen.2).2.1 ((hfree p hp).2 b hb).2.1
    rw [← heq]
    exact dif_pos hex
  have hof {b p : BitVec 32} (hb : place b = .list p) : p ∈ s.pages ∧ b ∈ free p := by
    by_cases hex : ∃ q ∈ s.pages, b ∈ free q
    · obtain ⟨q, hq, hbq⟩ := hex
      rw [hlist hq hbq] at hb
      cases hb
      exact ⟨hq, hbq⟩
    · rw [show place b = .caller from dif_neg hex] at hb
      cases hb
  refine ⟨free, place, h.page, h.block, h.apart, fun p hp => (hfree p hp).1, ?_, ?_, ?_, ?_, ?_, ?_, ?_, h.log⟩
  · exact fun p hp b => ⟨fun hb => ⟨((hfree p hp).2 b hb).1, hlist hp hb⟩, fun hb => (hof hb.2).2⟩
  · intro b _ p hb
    obtain ⟨hp, hmem⟩ := hof hb
    exact ⟨hp, ((hfree p hp).2 b hmem).2.1⟩
  · intro b
    constructor
    · intro hheld
      refine ⟨h.held b hheld, dif_neg ?_⟩
      rintro ⟨p, hp, hmem⟩
      exact ((hfree p hp).2 b hmem).2.2 hheld
    rintro ⟨hb, hcaller⟩
    obtain hheld | ⟨p, hp, l, hl, hmem⟩ := h.placed b hb
    · exact hheld
    · rw [((hl.unique (hfree p hp).1).1)] at hmem
      rw [hlist hp hmem] at hcaller
      cases hcaller
  · intro t b
    rw [h.idle t]
    refine iff_of_false id ?_
    rintro ⟨-, hcall⟩
    by_cases hex : ∃ q ∈ s.pages, b ∈ free q
    · obtain ⟨q, hq, hbq⟩ := hex
      rw [hlist hq hbq] at hcall
      cases hcall
    · rw [show place b = .caller from dif_neg hex] at hcall
      cases hcall
  · intro t
    rw [h.idle t, h.unlocked]
    simp [Pc.inside]
  · intro t
    rw [h.idle t]
    trivial
  · exact fun e he => (h.linked e he).imp_right .inl

theorem good (h : Inv size pool free place s) : Good s where
  lists p hp := ⟨free p, h.lists p hp, (h.lists p hp).nodup⟩
  returned := h.log
  owned b hb p hp l hl := by
    rw [(hl.unique (h.lists p hp)).1, h.listed p hp, ((h.held b).mp hb).2]
    simp
  kept b hb := by
    cases hplace : place b with
    | caller => exact .inl ((h.held b).mpr ⟨hb, hplace⟩)
    | list p =>
      have hp := (h.inPage b hb p hplace).1
      exact .inr (.inl ⟨p, hp, free p, h.lists p hp, (h.listed p hp b).mpr ⟨hb, hplace⟩⟩)
    | call t => exact .inr (.inr ⟨t, (h.handled t b).mpr ⟨hb, hplace⟩⟩)

/-! ## Addresses that the threads use -/

variable {e v page : BitVec 32} {t u : τ} {new : Place τ} {l : List (BitVec 32)}

section

variable (h : Inv size pool free place s)
include h

theorem inBlock_ne_head (hb : b ∈ s.blocks) (ha : InBlock size b a) (hp : p ∈ s.pages) : a ≠ p + 0xFF8#32 := by
  rintro rfl
  obtain ⟨q, hq, hfrom, hto⟩ := h.block b hb
  have hhead := (h.page p hp).toNat_head
  have hp' := (h.page p hp).aligned
  have hq' := (h.page q hq).aligned
  obtain ⟨hba, hab⟩ := ha
  omega

theorem inBlock_ne_link (hb : b ∈ s.blocks) (ha : InBlock size b a) (he : IsEnd pool s.pages e) : a ≠ e - 4#32 := by
  rintro rfl
  obtain ⟨q, hq, hfrom, hto⟩ := h.block b hb
  have hq' := (h.page q hq).aligned
  obtain ⟨hba, hab⟩ := ha
  rcases he with rfl | ⟨p, hp, rfl⟩
  · refine (h.page q hq).pool ⟨?_, ?_⟩ <;> omega
  · have hlink := (h.page p hp).toNat_link
    have hp' := (h.page p hp).aligned
    rw [end_sub_4] at hba hab
    omega

theorem inBlock_ne_block (hb : b ∈ s.blocks) (hc : c ∈ s.blocks) (hne : b ≠ c) (ha : InBlock size b a) : a ≠ c := by
  rintro rfl
  obtain ⟨hba, hab⟩ := ha
  rcases h.apart b hb a hc hne with hapart | hapart <;> omega

theorem head_ne_link (hp : p ∈ s.pages) (he : IsEnd pool s.pages e) : p + 0xFF8#32 ≠ e - 4#32 := by
  intro heq
  have hhead := (h.page p hp).toNat_head
  have hp' := (h.page p hp).aligned
  rcases he with rfl | ⟨q, hq, rfl⟩
  · refine (h.page p hp).pool ⟨?_, ?_⟩ <;> rw [← heq] <;> omega
  have hlink := (h.page q hq).toNat_link
  have hq' := (h.page q hq).aligned
  rw [end_sub_4] at heq
  rw [← heq] at hlink
  omega

theorem block_ne_zero (hb : b ∈ s.blocks) : b ≠ 0 := by
  rintro rfl
  obtain ⟨p, hp, hfrom, -⟩ := h.block _ hb
  exact (h.page p hp).ne_zero (by bv_omega)

theorem eq_of_inside (ht : (s.pc t).inside = true) (hu : (s.pc u).inside = true) : u = t :=
  Option.some.inj (((h.locked u).mp hu).symm.trans ((h.locked t).mp ht))

end

/-! ## What a write to the head of a list, and a block that moves, leave as it was -/

theorem listed_update (h : Inv size pool free place s) (hplace : ∀ p, place b ≠ .list p) (hnew : ∀ p, new ≠ .list p)
    (hp : p ∈ s.pages) (c : BitVec 32) : c ∈ free p ↔ c ∈ s.blocks ∧ update place b new c = .list p := by
  rw [h.listed p hp]
  by_cases hc : c = b
  · simp [hc, hplace p, hnew p]
  · simp [hc]

theorem inPage_update (h : Inv size pool free place s) (hnew : ∀ p, new ≠ .list p) (hc : c ∈ s.blocks) (p : BitVec 32)
    (hplace : update place b new c = .list p) : p ∈ s.pages ∧ BlockOf size p c := by
  by_cases hcb : c = b
  · rw [hcb, update_self] at hplace
    exact absurd hplace (hnew p)
  · rw [update_of_ne hcb] at hplace
    exact h.inPage c hc p hplace

theorem lists_update (hsize : 1 ≤ size) (h : Inv size pool free place s) {p v : BitVec 32} {l : List (BitVec 32)}
    (hp : p ∈ s.pages) (hl : Leads s.words (· ≠ 0) v l 0) (hmem : ∀ b ∈ l, b ∈ s.blocks) :
    ∀ q ∈ s.pages, FreeList (update s.words (p + 0xFF8#32) v) q (update free p l q) := by
  intro q hq
  have hother {b : BitVec 32} (hb : b ∈ s.blocks) : update s.words (p + 0xFF8#32) v b = s.words b :=
    update_of_ne (h.inBlock_ne_head hb (inBlock_self hsize b) hp) _ _
  by_cases hqp : q = p
  · rw [hqp, FreeList, update_self, update_self]
    exact hl.congr (fun b hb => hother (hmem b hb)) fun _ => Iff.rfl
  · have hne : q + 0xFF8#32 ≠ p + 0xFF8#32 := fun heq => hqp (by bv_omega)
    rw [FreeList, update_of_ne hne, update_of_ne hqp]
    exact (h.lists q hq).congr (fun b hb => hother ((h.listed q hq b).mp hb).1) fun _ => Iff.rfl

theorem thread_update (hsize : 1 ≤ size) (h : Inv size pool free place s) (hp : p ∈ s.pages)
    (hsub : (s.pc u).inside = true → ∀ b ∈ free p, b ∈ l) :
    ThreadOk pool (update free p l) (update s.words (p + 0xFF8#32) v) s.pages (s.pc u) := by
  have hok := h.thread u
  have hother {b : BitVec 32} (hb : b ∈ s.blocks) : update s.words (p + 0xFF8#32) v b = s.words b :=
    update_of_ne (h.inBlock_ne_head hb (inBlock_self hsize b) hp) _ _
  have hstays {q b : BitVec 32} (hin : (s.pc u).inside = true) (hb : b ∈ free q) : b ∈ update free p l q := by
    by_cases hqp : q = p
    · rw [hqp, update_self]
      rw [hqp] at hb
      exact hsub hin b hb
    · rwa [update_of_ne hqp]
  cases hpc : s.pc u with
  | readNext edx eax =>
    rw [hpc] at hok
    obtain ⟨q, hq, hedx, hmem⟩ := hok
    exact ⟨q, hq, hedx, hstays (by rw [hpc]; rfl) hmem⟩
  | exchange edx eax ecx =>
    rw [hpc] at hok
    obtain ⟨q, hq, hedx, hmem, hnext⟩ := hok
    exact ⟨q, hq, hedx, hstays (by rw [hpc]; rfl) hmem, (hother ((h.listed q hq eax).mp hmem).1).trans hnext⟩
  | freeExchange ecx eax =>
    rw [hpc] at hok
    have hmem := ((h.handled u ecx).mp (by rw [hpc]; rfl)).1
    exact (hother hmem).trans hok
  | _ =>
    rw [hpc] at hok
    exact hok

theorem linked_update (h : Inv size pool free place s) (hp : p ∈ s.pages) (he : IsEnd pool s.pages e) :
    update s.words (p + 0xFF8#32) v (e - 4#32) = s.words (e - 4#32) :=
  update_of_ne (h.head_ne_link hp he).symm _ _

/-! ## Steps that write to memory -/

theorem store (h : Inv size pool free place s) (hhead : ∀ p ∈ s.pages, p + 0xFF8#32 ≠ a)
    (hlink : ∀ e, IsEnd pool s.pages e → e - 4#32 = a → ∃ t, s.pc t = .setUp v)
    (hfree : ∀ p ∈ s.pages, ∀ b ∈ free p, b ≠ a) (hexchange : ∀ t eax, s.pc t ≠ .freeExchange a eax) :
    Inv size pool free place (s.store a v) := by
  refine ⟨h.page, h.block, h.apart, ?_, h.listed, h.inPage, h.held, h.handled, h.locked, ?_, ?_, h.log⟩
  · intro p hp
    have hlist : Leads (update s.words a v) (· ≠ 0) (s.words (p + 0xFF8#32)) (free p) 0 :=
      (h.lists p hp).congr (fun x hx => update_of_ne (hfree p hp x hx) _ _) fun _ => Iff.rfl
    rw [FreeList, store_words, update_of_ne (hhead p hp)]
    exact hlist
  · intro t
    have hok := h.thread t
    change ThreadOk pool free (update s.words a v) s.pages (s.pc t)
    cases hpc : s.pc t with
    | exchange edx eax ecx =>
      rw [hpc] at hok
      obtain ⟨p, hp, hedx, hmem, hnext⟩ := hok
      exact ⟨p, hp, hedx, hmem, (update_of_ne (hfree p hp eax hmem) _ _).trans hnext⟩
    | freeExchange ecx eax =>
      rw [hpc] at hok
      have hne : ecx ≠ a := by
        rintro rfl
        exact hexchange t eax hpc
      exact (update_of_ne hne _ _).trans hok
    | _ =>
      rw [hpc] at hok
      exact hok
  · intro e he
    by_cases hea : e - 4#32 = a
    · rw [hea, store_words, update_self]
      exact .inr (.inr (hlink e he hea))
    · rw [store_words, update_of_ne hea]
      exact h.linked e he

theorem store_block (h : Inv size pool free place s) (hb : b ∈ s.blocks) (hfree : ∀ p, place b ≠ .list p)
    (hexchange : ∀ t eax, s.pc t ≠ .freeExchange b eax) (ha : InBlock size b a) :
    Inv size pool free place (s.store a v) := by
  refine h.store (fun p hp => (h.inBlock_ne_head hb ha hp).symm)
    (fun e he heq => absurd heq.symm (h.inBlock_ne_link hb ha he)) (fun p hp c hc => ?_) fun t eax hpc => ?_
  · obtain ⟨hmem, hplace⟩ := (h.listed p hp c).mp hc
    have hne : b ≠ c := by
      rintro rfl
      exact hfree p hplace
    exact (h.inBlock_ne_block hb hmem hne ha).symm
  obtain ⟨hmem, -⟩ := (h.handled t a).mp (by rw [hpc]; rfl)
  have hne : b ≠ a := by
    rintro rfl
    exact hexchange t eax hpc
  exact h.inBlock_ne_block hb hmem hne ha rfl

theorem not_inPage (h : Inv size pool free place s) (hpage : PageOk pool page) (hnew : page ∉ s.pages)
    (ha : InPage page a) (hp : p ∈ s.pages) : ¬ InPage p a := by
  intro hap
  rw [page_eq_of_inPage hpage (h.page p hp) ha hap] at hnew
  exact hnew hp

theorem block_ne_inPage (hsize : 1 ≤ size) (h : Inv size pool free place s) (hpage : PageOk pool page)
    (hnew : page ∉ s.pages) (ha : InPage page a) (hb : b ∈ s.blocks) : b ≠ a := by
  rintro rfl
  obtain ⟨p, hp, hblock⟩ := h.block b hb
  exact h.not_inPage hpage hnew ha hp (inPage_of_blockOf hsize hblock)

theorem setUpWrite (hsize : 1 ≤ size) (h : Inv size pool free place s) (hpage : PageOk pool page)
    (hnew : page ∉ s.pages) (ha : InPage page a) : Inv size pool free place (s.store a v) := by
  refine h.store (fun p hp => ?_) (fun e he heq => ?_) (fun p hp b hb => ?_) fun t eax hpc => ?_
  · rintro rfl
    refine h.not_inPage hpage hnew ha hp ⟨?_, ?_⟩ <;> rw [(h.page p hp).toNat_head] <;> omega
  · rw [← heq] at ha
    rcases he with rfl | ⟨p, hp, rfl⟩
    · exact absurd ha hpage.pool
    · rw [end_sub_4] at ha
      refine absurd ⟨?_, ?_⟩ (h.not_inPage hpage hnew ha hp) <;> rw [(h.page p hp).toNat_link] <;> omega
  · exact h.block_ne_inPage hsize hpage hnew ha ((h.listed p hp b).mp hb).1
  · obtain ⟨hmem, -⟩ := (h.handled t a).mp (by rw [hpc]; rfl)
    exact h.block_ne_inPage hsize hpage hnew ha hmem rfl

/-! ## Steps that change nothing but the thread -/

variable [DecidableEq τ]

theorem locked_goto (h : Inv size pool free place s) (hpc : pc.inside = (s.pc t).inside) (u : τ) :
    ((s.goto t pc).pc u).inside = true ↔ s.lock = some u := by
  by_cases hu : u = t
  · rw [hu, goto_pc_self, hpc]
    exact h.locked t
  · rw [goto_pc_of_ne _ hu]
    exact h.locked u

theorem linked_goto (h : Inv size pool free place s) (hpc : ∀ page, s.pc t ≠ .setUp page) (he : IsEnd pool s.pages e) :
    s.words (e - 4#32) = 0 ∨ s.words (e - 4#32) ∈ s.pages ∨
      ∃ u, (s.goto t pc).pc u = .setUp (s.words (e - 4#32)) := by
  refine (h.linked e he).imp_right (.imp_right fun ⟨u, hu⟩ => ⟨u, ?_⟩)
  have hut : u ≠ t := by
    rintro rfl
    exact hpc _ hu
  rw [goto_pc_of_ne _ hut]
  exact hu

theorem thread_goto (hok : ThreadOk pool free words pages pc)
    (hothers : ∀ u ≠ t, ThreadOk pool free words pages (s.pc u)) (u : τ) :
    ThreadOk pool free words pages ((s.goto t pc).pc u) := by
  by_cases hu : u = t
  · rw [hu, goto_pc_self]
    exact hok
  · rw [goto_pc_of_ne _ hu]
    exact hothers u hu

theorem relock (h : Inv size pool free place s) {lock : Option τ} (hinside : pc.inside = true ↔ lock = some t)
    (hothers : ∀ u ≠ t, (s.pc u).inside = true ↔ lock = some u) (hhandles : ∀ b, pc.Handles b ↔ (s.pc t).Handles b)
    (hsetUp : ∀ page, s.pc t ≠ .setUp page) (hok : ThreadOk pool free s.words s.pages pc) :
    Inv size pool free place ({ s with lock }.goto t pc) := by
  refine ⟨h.page, h.block, h.apart, h.lists, h.listed, h.inPage, h.held, ?_, ?_, thread_goto hok fun u _ => h.thread u,
    fun e he => h.linked_goto hsetUp he, h.log⟩
  · intro u b
    by_cases hu : u = t
    · rw [hu, goto_pc_self, hhandles]
      exact h.handled t b
    · rw [goto_pc_of_ne _ hu]
      exact h.handled u b
  intro u
  by_cases hu : u = t
  · rw [hu, goto_pc_self]
    exact hinside
  · rw [goto_pc_of_ne _ hu]
    exact hothers u hu

theorem goto (h : Inv size pool free place s) {old : Pc} (hpc : s.pc t = old) (hinside : pc.inside = old.inside)
    (hhandles : ∀ b, pc.Handles b ↔ old.Handles b) (hsetUp : ∀ page, old ≠ .setUp page)
    (hok : ThreadOk pool free s.words s.pages pc) : Inv size pool free place (s.goto t pc) := by
  subst hpc
  refine h.relock ?_ (fun u _ => h.locked u) hhandles hsetUp hok
  rw [hinside]
  exact h.locked t

theorem takeLock (h : Inv size pool free place s) (hpc : s.pc t = .takeLock) (hlock : s.lock = none) :
    Inv size pool free place ({ s with lock := some t }.goto t (.pageLoop pool)) := by
  refine h.relock (by simp [Pc.inside]) (fun u hu => ?_) (fun b => by rw [hpc]; rfl) (fun page => by rw [hpc]; simp)
    (.inl rfl)
  rw [h.locked u, hlock]
  simp [Ne.symm hu]

end Inv

end Kolibri.Slab
