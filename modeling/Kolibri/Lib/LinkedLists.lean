import Mathlib

/-! # Doubly linked lists

A ring starts and ends at its head. Several rings may share the two link functions.
-/

namespace Kolibri.LinkedLists

open Function List

variable {ν : Type*} {next next' prev prev' : ν → ν}

def Path (next prev : ν → ν) : ν → List ν → ν → Prop
  | a, [], b => next a = b ∧ prev b = a
  | a, x :: l, b => next a = x ∧ prev x = a ∧ Path next prev x l b

variable {a b x y : ν} {l : List ν}

theorem path_append {l' : List ν} :
    Path next prev a (l ++ x :: l') b ↔ Path next prev a l x ∧ Path next prev x l' b := by
  induction l generalizing a with
  | nil => simp [Path, and_assoc]
  | cons y l ih => simp [Path, ih, and_assoc]

section

variable (h : Path next prev a l b)
include h

theorem path_congr (hnext : ∀ y, y = a ∨ y ∈ l → next' y = next y)
    (hprev : ∀ y, y ∈ l ∨ y = b → prev' y = prev y) : Path next' prev' a l b := by
  induction l generalizing a with
  | nil => exact ⟨by rw [hnext a (.inl rfl), h.1], by rw [hprev b (.inr rfl), h.2]⟩
  | cons x l ih =>
    obtain ⟨hx, hback, hl⟩ := h
    refine ⟨by rw [hnext a (.inl rfl), hx], by rw [hprev x (.inl mem_cons_self), hback], ih hl ?_ ?_⟩
    · rintro y (rfl | hy)
      · exact hnext y (.inr mem_cons_self)
      · exact hnext y (.inr (mem_cons_of_mem _ hy))
    · rintro y (hy | rfl)
      · exact hprev y (.inl (mem_cons_of_mem _ hy))
      · exact hprev y (.inr rfl)

theorem path_source {a' : ν} (hsrc : next' a' = next a) (hback : prev' (next a) = a')
    (hnext : ∀ y, y ∈ l → next' y = next y) (hprev : ∀ y, y ∈ l ∨ y = b → y ≠ next a → prev' y = prev y)
    (hnodup : (l ++ [b]).Nodup) : Path next' prev' a' l b := by
  cases l with
  | nil => exact ⟨by rw [hsrc, h.1], by rw [← h.1, hback]⟩
  | cons x l =>
    obtain ⟨rfl, hx, hl⟩ := h
    obtain ⟨hfresh, -⟩ := nodup_cons.mp hnodup
    refine ⟨hsrc, hback, path_congr hl ?_ ?_⟩
    · rintro y (rfl | hy)
      · exact hnext _ mem_cons_self
      · exact hnext y (mem_cons_of_mem _ hy)
    · rintro y (hy | rfl)
      · exact hprev y (.inl (mem_cons_of_mem _ hy)) fun he => hfresh (by simp [← he, hy])
      · exact hprev y (.inr rfl) fun he => hfresh (by simp [← he])

theorem path_last : (l = [] ∧ prev b = a) ∨ ∃ l0, l = l0 ++ [prev b] ∧ Path next prev a l0 (prev b) := by
  rcases eq_nil_or_concat l with rfl | ⟨l0, x, rfl⟩
  · exact .inl ⟨rfl, h.2⟩
  · rw [concat_eq_append] at h ⊢
    obtain ⟨hl, hx⟩ := path_append.mp h
    obtain rfl : prev b = x := hx.2
    exact .inr ⟨l0, rfl, hl⟩

theorem path_next_mem (hy : y = a ∨ y ∈ l) : next y ∈ l ∨ next y = b := by
  induction l generalizing a with
  | nil =>
    rcases hy with rfl | hy
    · exact .inr h.1
    · cases hy
  | cons x l ih =>
    rcases hy with rfl | hy
    · exact .inl (by simp [h.1])
    · rcases ih h.2.2 (mem_cons.mp hy) with hn | hn
      · exact .inl (mem_cons_of_mem _ hn)
      · exact .inr hn

theorem path_prev_mem (hy : y ∈ l ∨ y = b) : prev y = a ∨ prev y ∈ l := by
  induction l generalizing a with
  | nil =>
    rcases hy with hy | rfl
    · cases hy
    · exact .inl h.2
  | cons x l ih =>
    obtain ⟨-, hx, hl⟩ := h
    by_cases hyx : y = x
    · exact .inl (by rw [hyx, hx])
    have hy' : y ∈ l ∨ y = b := by
      rcases hy with hy | hy
      · exact .inl ((mem_cons.mp hy).resolve_left hyx)
      · exact .inr hy
    rcases ih hl hy' with hp | hp
    · exact .inr (by simp [hp])
    · exact .inr (mem_cons_of_mem _ hp)

theorem path_prev_next (hy : y = a ∨ y ∈ l) : prev (next y) = y := by
  induction l generalizing a with
  | nil =>
    rcases hy with rfl | hy
    · rw [h.1, h.2]
    · cases hy
  | cons x l ih =>
    rcases hy with rfl | hy
    · rw [h.1, h.2.1]
    · exact ih h.2.2 (mem_cons.mp hy)

theorem path_next_prev (hy : y ∈ l ∨ y = b) : next (prev y) = y := by
  induction l generalizing a with
  | nil =>
    rcases hy with hy | rfl
    · cases hy
    · rw [h.2, h.1]
  | cons x l ih =>
    obtain ⟨ha, hx, hl⟩ := h
    by_cases hyx : y = x
    · rw [hyx, hx, ha]
    · refine ih hl (hy.imp_left fun hm => ?_)
      exact (mem_cons.mp hm).resolve_left hyx

theorem path_next_ne (hnodup : (l ++ [b]).Nodup) (hy : y ∈ l) : next y ≠ y := by
  obtain ⟨l1, l2, rfl⟩ := append_of_mem hy
  obtain ⟨-, h2⟩ := path_append.mp h
  rw [append_assoc, cons_append] at hnodup
  obtain ⟨hfresh, -⟩ := nodup_cons.mp (nodup_append.mp hnodup).2.1
  intro he
  refine hfresh ?_
  rcases path_next_mem h2 (.inl rfl) with hn | hn <;> rw [he] at hn <;> simp [hn]

end

/-! ## Searching -/

/-- Goes along `next` until `p` holds. `none` is a walk that does not end. -/
def scan [DecidableEq ν] (next : ν → ν) (head : ν) (p : ν → Bool) : Nat → ν → Option (Option ν)
  | 0, _ => none
  | fuel + 1, x =>
    if next x = head then some none
    else if p (next x) then some (some (next x)) else scan next head p fuel (next x)

theorem scan_spec [DecidableEq ν] {head : ν} (h : Path next prev a l head) (hhead : head ∉ l) (p : ν → Bool)
    {fuel : Nat} (hfuel : l.length < fuel) : scan next head p fuel a = some (l.find? p) := by
  induction fuel generalizing a l with
  | zero => omega
  | succ fuel ih =>
    unfold scan
    cases l with
    | nil => simp [h.1]
    | cons x l =>
      obtain ⟨rfl, -, hl⟩ := h
      simp only [mem_cons, not_or] at hhead
      rw [if_neg (Ne.symm hhead.1), List.find?_cons]
      cases hp : p (next a) with
      | true => rfl
      | false => exact ih hl hhead.2 (by simpa using hfuel)

/-! ## Adding and removing a node -/

section Links

variable [DecidableEq ν]

def addNext (next : ν → ν) (x a : ν) : ν → ν := update (update next x (next a)) a x

def addPrev (next prev : ν → ν) (x a : ν) : ν → ν := update (update prev (next a) x) x a

def removeNext (next prev : ν → ν) (x : ν) : ν → ν := update next (prev x) (next x)

def removePrev (next prev : ν → ν) (x : ν) : ν → ν := update prev (next x) (prev x)

theorem path_add (h : Path next prev a l b) (hnodup : (l ++ [b]).Nodup) (ha : a ∉ l) (hx : x ∉ l) (hxa : x ≠ a)
    (hxb : x ≠ b) : Path (addNext next x a) (addPrev next prev x a) a (x :: l) b := by
  have hfirst : next a ≠ x := by
    intro he
    rcases path_next_mem h (.inl rfl) with hn | hn
    · exact hx (he ▸ hn)
    · exact hxb (he.symm.trans hn)
  refine ⟨update_self .., update_self .., path_source h ?_ ?_ ?_ ?_ hnodup⟩
  · rw [addNext, update_of_ne hxa, update_self]
  · rw [addPrev, update_of_ne hfirst, update_self]
  · intro y hy
    have hya : y ≠ a := fun he => ha (he ▸ hy)
    have hyx : y ≠ x := fun he => hx (he ▸ hy)
    rw [addNext, update_of_ne hya, update_of_ne hyx]
  · intro y hy hne
    have hyx : y ≠ x := by
      rintro rfl
      exact hy.elim hx hxb
    rw [addPrev, update_of_ne hyx, update_of_ne hne]

variable {l1 l2 : List ν}

theorem path_add_after {p : ν} (h : Path next prev a (l1 ++ p :: l2) b) (hnodup : (l1 ++ p :: l2 ++ [b]).Nodup)
    (ha : a ∉ l1 ++ p :: l2) (hy : y ∉ l1 ++ p :: l2) (hya : y ≠ a) (hyb : y ≠ b) :
    Path (addNext next y p) (addPrev next prev y p) a (l1 ++ p :: y :: l2) b := by
  obtain ⟨h1, h2⟩ := path_append.mp h
  rw [append_assoc, cons_append] at hnodup
  obtain ⟨-, hn, hdisj⟩ := nodup_append.mp hnodup
  obtain ⟨hp, hn2⟩ := nodup_cons.mp hn
  simp only [mem_append, mem_cons, not_or] at ha hy
  refine path_append.mpr ⟨path_congr h1 (fun z hz => ?_) (fun z hz => ?_),
    path_add h2 hn2 (fun hm => hp (mem_append_left _ hm)) hy.2.2 hy.2.1 hyb⟩
  · have hzp : z ≠ p := by
      rintro rfl
      rcases hz with hz | hz
      · exact ha.2.1 hz.symm
      · exact hdisj _ hz _ mem_cons_self rfl
    have hzy : z ≠ y := by
      rintro rfl
      exact hz.elim hya hy.1
    rw [addNext, update_of_ne hzp, update_of_ne hzy]
  have hzy : z ≠ y := by
    rintro rfl
    exact hz.elim hy.1 hy.2.1
  have hznext : z ≠ next p := by
    rintro rfl
    have hmem : next p ∈ l2 ++ [b] := by simpa using path_next_mem h2 (.inl rfl)
    rcases hz with hz | hz
    · exact hdisj _ hz _ (mem_cons_of_mem _ hmem) rfl
    · exact hp (hz ▸ hmem)
  rw [addPrev, update_of_ne hzy, update_of_ne hznext]

theorem path_push (h : Path next prev a l b) (hnodup : (l ++ [b]).Nodup) (ha : a ∉ l) (hx : x ∉ l) (hxa : x ≠ a)
    (hxb : x ≠ b) : Path (addNext next x (prev b)) (addPrev next prev x (prev b)) a (l ++ [x]) b := by
  rcases path_last h with ⟨rfl, hlast⟩ | ⟨l0, hl, -⟩
  · rw [hlast]
    exact path_add h hnodup ha hx hxa hxb
  · rw [hl] at h hnodup ha hx ⊢
    rw [append_assoc, singleton_append]
    exact path_add_after h hnodup ha hx hxa hxb

theorem path_insert (h : Path next prev a (l1 ++ x :: l2) b) (hnodup : (l1 ++ x :: l2 ++ [b]).Nodup)
    (ha : a ∉ l1 ++ x :: l2) (hy : y ∉ l1 ++ x :: l2) (hya : y ≠ a) (hyb : y ≠ b) :
    Path (addNext next y (prev x)) (addPrev next prev y (prev x)) a (l1 ++ y :: x :: l2) b := by
  rcases path_last (path_append.mp h).1 with ⟨rfl, hlast⟩ | ⟨l0, rfl, -⟩
  · rw [hlast]
    exact path_add h hnodup ha hy hya hyb
  · simp only [append_assoc, singleton_append] at h hnodup ha hy ⊢
    exact path_add_after h (by simpa using hnodup) ha hy hya hyb

theorem path_remove (h : Path next prev a (l1 ++ x :: l2) b) (hnodup : (l1 ++ x :: l2 ++ [b]).Nodup)
    (ha : a ∉ l1 ++ x :: l2) : Path (removeNext next prev x) (removePrev next prev x) a (l1 ++ l2) b := by
  obtain ⟨h1, h2⟩ := path_append.mp h
  simp only [mem_append, mem_cons, not_or] at ha
  rw [append_assoc, cons_append, nodup_append, nodup_cons] at hnodup
  obtain ⟨hn1, ⟨hx2, hn2⟩, hdisj⟩ := hnodup
  have hv := path_next_mem h2 (.inl rfl)
  -- The links behind `x` now start at the node in front of it.
  have hsource : prev x = a ∨ prev x ∈ l1 → Path (removeNext next prev x) (removePrev next prev x) (prev x) l2 b := by
    intro hu
    refine path_source h2 (update_self ..) (update_self ..) (fun y hy => ?_) (fun y _ hne => ?_) ?_
    · refine update_of_ne (fun he => ?_) _ _
      rcases hu with hu | hu
      · exact ha.2.2 (by rw [← hu, ← he]; exact hy)
      · exact hdisj (prev x) hu y (by simp [hy]) he.symm
    · exact update_of_ne hne _ _
    · exact hn2
  rcases path_last h1 with ⟨rfl, hlast⟩ | ⟨l0, rfl, h0⟩
  · have hpath := hsource (.inl hlast)
    rwa [hlast] at hpath
  rw [append_assoc, singleton_append]
  refine path_append.mpr ⟨path_congr h0 (fun y hy => ?_) (fun y hy => ?_), hsource (.inr (by simp))⟩
  · refine update_of_ne ?_ _ _
    rintro rfl
    rcases hy with hy | hy
    · exact ha.1 (by simp [← hy])
    · exact (nodup_append.mp hn1).2.2 _ hy _ (by simp) rfl
  refine update_of_ne ?_ _ _
  rintro rfl
  have hmem : next x ∈ l0 ++ [prev x] := by simpa using hy
  rcases hv with hv | hv
  · exact hdisj _ hmem _ (by simp [hv]) rfl
  · exact hdisj _ hmem b (by simp) hv

end Links

/-! ## Families of rings -/

section Families

/-- `members a` are the nodes of the ring with head `a`. -/
structure Rings (next prev : ν → ν) (Head : ν → Prop) (members : ν → List ν) : Prop where
  path : ∀ a, Head a → Path next prev a (members a) a
  nodup : ∀ a, Head a → (members a).Nodup
  apart : ∀ a b x, Head a → Head b → x ∈ members a → x ∈ members b → a = b
  inner : ∀ a x, Head a → x ∈ members a → ¬ Head x

variable {Head : ν → Prop} {members : ν → List ν}

def Linked (Head : ν → Prop) (members : ν → List ν) (y : ν) : Prop := Head y ∨ ∃ a, Head a ∧ y ∈ members a

section

variable (h : Rings next prev Head members)
include h

theorem Rings.congr
    (heq : ∀ y, Linked Head members y → next' y = next y ∧ prev' y = prev y) : Rings next' prev' Head members := by
  refine ⟨fun a ha => path_congr (h.path a ha) ?_ ?_, h.nodup, h.apart, h.inner⟩
  · rintro y (rfl | hy)
    · exact (heq y (.inl ha)).1
    · exact (heq y (.inr ⟨a, ha, hy⟩)).1
  · rintro y (hy | rfl)
    · exact (heq y (.inr ⟨a, ha, hy⟩)).2
    · exact (heq y (.inl ha)).2

theorem Rings.head_notMem (ha : Head a) (hb : Head b) : b ∉ members a :=
  fun hmem => h.inner a b ha hmem hb

theorem Rings.nodup_head (ha : Head a) : (members a ++ [a]).Nodup := by
  rw [nodup_append]
  refine ⟨h.nodup a ha, nodup_singleton a, fun x hx y hy he => ?_⟩
  obtain rfl := mem_singleton.mp hy
  exact h.head_notMem ha ha (he ▸ hx)

theorem Rings.next_eq_self (ha : Head a) : next a = a ↔ members a = [] := by
  have hpath := h.path a ha
  cases hm : members a with
  | nil => rw [hm] at hpath; simp [hpath.1]
  | cons x l =>
    rw [hm] at hpath
    simp only [hpath.1, reduceCtorEq, iff_false]
    rintro rfl
    exact h.head_notMem ha ha (by simp [hm])

theorem Rings.linked_next (ha : Head a) (hy : y = a ∨ y ∈ members a) : next y = a ∨ next y ∈ members a :=
  (path_next_mem (h.path a ha) hy).symm

theorem Rings.linked_prev (ha : Head a) (hy : y = a ∨ y ∈ members a) : prev y = a ∨ prev y ∈ members a :=
  path_prev_mem (h.path a ha) hy.symm

theorem Rings.other (ha : Head a) (hb : Head b) (hba : b ≠ a)
    (hy : y = b ∨ y ∈ members b) : ¬ (y = a ∨ y ∈ members a) := by
  rintro (rfl | hya)
  · rcases hy with rfl | hy
    · exact hba rfl
    · exact h.head_notMem hb ha hy
  · rcases hy with rfl | hy
    · exact h.head_notMem ha hb hya
    · exact hba (h.apart b a y hb ha hy hya)

end

theorem not_mem_of_not_linked (hy : ¬ Linked Head members y) (ha : Head a) : ¬ (y = a ∨ y ∈ members a) :=
  fun h => hy (h.imp (fun he : y = a => he ▸ ha) fun hm => ⟨a, ha, hm⟩)

variable [DecidableEq ν]

theorem Rings.add_frame (h : Rings next prev Head members) (ha : Head a) (hyx : y ≠ x)
    (hy : ¬ (y = a ∨ y ∈ members a)) : addNext next x a y = next y ∧ addPrev next prev x a y = prev y := by
  constructor
  · rw [addNext, update_of_ne (fun he => hy (.inl he)), update_of_ne hyx]
  · rw [addPrev, update_of_ne hyx, update_of_ne]
    rintro rfl
    exact hy (h.linked_next ha (.inl rfl))

theorem Rings.remove_frame (h : Rings next prev Head members) (ha : Head a) (hx : x ∈ members a)
    (hy : ¬ (y = a ∨ y ∈ members a)) : removeNext next prev x y = next y ∧ removePrev next prev x y = prev y := by
  constructor
  · rw [removeNext, update_of_ne]
    rintro rfl
    exact hy (h.linked_prev ha (.inr hx))
  · rw [removePrev, update_of_ne]
    rintro rfl
    exact hy (h.linked_next ha (.inr hx))

theorem mem_update_cons : y ∈ update members a (x :: members a) b ↔ y ∈ members b ∨ (b = a ∧ y = x) := by
  rcases eq_or_ne b a with rfl | hba
  · simp [or_comm]
  · simp [hba]

theorem Rings.mem_update_erase (h : Rings next prev Head members) (ha : Head a) (hb : Head b) (hx : x ∈ members a) :
    y ∈ update members a ((members a).erase x) b ↔ y ∈ members b ∧ y ≠ x := by
  rcases eq_or_ne b a with rfl | hba
  · rw [update_self, (h.nodup b hb).mem_erase_iff, and_comm]
  · rw [update_of_ne hba]
    refine ⟨fun hy => ⟨hy, ?_⟩, And.left⟩
    rintro rfl
    exact hba (h.apart b a y hb ha hy hx)

theorem Rings.add (h : Rings next prev Head members) (ha : Head a) (hx : ¬ Linked Head members x) :
    Rings (addNext next x a) (addPrev next prev x a) Head (update members a (x :: members a)) := by
  simp only [Linked, not_or, not_exists, not_and] at hx
  obtain ⟨hhead, hfresh⟩ := hx
  refine ⟨fun b hb => ?_, fun b hb => ?_, fun b c y hb hc hyb hyc => ?_, fun b y hb hy => ?_⟩
  · rcases eq_or_ne b a with rfl | hba
    · rw [update_self]
      exact path_add (h.path b ha) (h.nodup_head ha) (h.head_notMem ha ha) (hfresh b ha) (fun he => hhead (he ▸ ha))
        (fun he => hhead (he ▸ ha))
    rw [update_of_ne hba]
    have hframe : ∀ y, y = b ∨ y ∈ members b → addNext next x a y = next y ∧ addPrev next prev x a y = prev y := by
      intro y hy
      refine h.add_frame ha ?_ (h.other ha hb hba hy)
      rintro rfl
      rcases hy with rfl | hy
      · exact hhead hb
      · exact hfresh b hb hy
    exact path_congr (h.path b hb) (fun y hy => (hframe y hy).1) fun y hy => (hframe y hy.symm).2
  · rcases eq_or_ne b a with rfl | hba
    · rw [update_self, nodup_cons]
      exact ⟨hfresh b ha, h.nodup b ha⟩
    · rw [update_of_ne hba]
      exact h.nodup b hb
  · rcases mem_update_cons.mp hyb with holdb | ⟨hba, rfl⟩
    · rcases mem_update_cons.mp hyc with holdc | ⟨-, rfl⟩
      · exact h.apart b c y hb hc holdb holdc
      · exact absurd holdb (hfresh b hb)
    · rcases mem_update_cons.mp hyc with holdc | ⟨hca, -⟩
      · exact absurd holdc (hfresh c hc)
      · rw [hba, hca]
  · rcases mem_update_cons.mp hy with hy | ⟨-, rfl⟩
    · exact h.inner b y hb hy
    · exact hhead

theorem Rings.remove (h : Rings next prev Head members) (ha : Head a) (hx : x ∈ members a) :
    Rings (removeNext next prev x) (removePrev next prev x) Head (update members a ((members a).erase x)) := by
  have hsub : ∀ b y, Head b → y ∈ update members a ((members a).erase x) b → y ∈ members b :=
    fun b y hb hy => ((h.mem_update_erase ha hb hx).mp hy).1
  refine ⟨fun b hb => ?_, fun b hb => ?_,
    fun b c y hb hc hyb hyc => h.apart b c y hb hc (hsub b y hb hyb) (hsub c y hc hyc),
    fun b y hb hy => h.inner b y hb (hsub b y hb hy)⟩
  · rcases eq_or_ne b a with rfl | hba
    · obtain ⟨l1, l2, hnot, hsplit, herase⟩ := exists_erase_eq hx
      have hpath := h.path b ha
      have hnodup := h.nodup_head ha
      have hself := h.head_notMem ha ha
      rw [hsplit] at hpath hnodup hself
      rw [update_self, herase]
      exact path_remove hpath hnodup hself
    · rw [update_of_ne hba]
      have hframe : ∀ y, y = b ∨ y ∈ members b →
          removeNext next prev x y = next y ∧ removePrev next prev x y = prev y :=
        fun y hy => h.remove_frame ha hx (h.other ha hb hba hy)
      exact path_congr (h.path b hb) (fun y hy => (hframe y hy).1) fun y hy => (hframe y hy.symm).2
  · rcases eq_or_ne b a with rfl | hba
    · rw [update_self]
      exact (h.nodup b ha).erase x
    · rw [update_of_ne hba]
      exact h.nodup b hb

end Families

end Kolibri.LinkedLists
