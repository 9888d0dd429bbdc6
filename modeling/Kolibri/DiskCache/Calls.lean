import Kolibri.DiskCache.Calm

/-! # The driver calls of a flush

A driver that refuses a call gets the same calls up to there as one that refuses nothing.
-/

namespace Kolibri.DiskCache

open Stretch List

variable {α : Type*} {w : World}

/-! ## A list of calls -/

structure Sound (call : WriteCall α) : Prop where
  slots : ∀ k ∈ call.slots, Slot call.before k
  sectors : call.slots.map (fun k => (call.before.item k).sector) = stretch call.start call.slots.length
  buffer : call.buffer = call.slots.map fun k => (call.before.item k).data
  written : call.numSectors = call.slots.length

def Calls : Cache α → List (WriteCall α) → Cache α → Prop
  | c, [], c' => c' = c
  | c, call :: calls, c' => call.before = c ∧ Sound call ∧ Calls (c.markCopies call.slots) calls c'

variable {c c' : Cache α} {calls calls' : List (WriteCall α)} {call : WriteCall α} {eax : BitVec 32} {f : Flush α}
  {chain : Chain} {esi k n : Nat} {lo : BitVec 64}

theorem Calls.append {c'' : Cache α} (h : Calls c calls c') (h' : Calls c' calls' c'') :
    Calls c (calls ++ calls') c'' := by
  induction calls generalizing c with
  | nil => cases h; exact h'
  | cons call calls ih => exact ⟨h.1, h.2.1, ih h.2.2⟩

theorem Calls.split (h : Calls c (calls ++ call :: calls') c') : Calls c calls call.before ∧ Sound call := by
  induction calls generalizing c with
  | nil => exact ⟨h.1, h.2.1⟩
  | cons first calls ih =>
    obtain ⟨hbefore, hsound, hrest⟩ := h
    exact ⟨⟨hbefore, hsound, (ih hrest).1⟩, (ih hrest).2⟩

theorem Calls.cache_eq (h : Calls c calls c') : c' = c.markCopies (calls.flatMap (·.slots)) := by
  induction calls generalizing c with
  | nil => exact h
  | cons call calls ih => rw [ih h.2.2, flatMap_cons, markCopies_append]

theorem Calls.sadSize (h : Calls c calls c') : c'.sadSize = c.sadSize := by
  rw [h.cache_eq, markCopies_sadSize]

theorem Calls.written (h : Calls c calls c') : ∀ call ∈ calls, call.numSectors = call.slots.length := by
  induction calls generalizing c with
  | nil => intro call hcall; cases hcall
  | cons first calls ih =>
    intro call hcall
    rcases mem_cons.mp hcall with rfl | hcall
    · exact h.2.1.written
    · exact ih h.2.2 call hcall

theorem Calls.status (h : Calls c calls c') (j : Nat) :
    ((∃ call ∈ calls, j ∈ call.slots) ∧ (c'.item j).status = .copy) ∨
      ((∀ call ∈ calls, j ∉ call.slots) ∧ (c'.item j).status = (c.item j).status) := by
  rw [h.cache_eq, markCopies_status]
  split_ifs with hj
  · exact .inl ⟨mem_flatMap.mp hj, rfl⟩
  · exact .inr ⟨fun call hcall hmem => hj (mem_flatMap.mpr ⟨call, hcall, hmem⟩), rfl⟩

theorem Calls.modified_before (h : Calls c calls c') (hk : (c'.item k).status = .modified) :
    (c.item k).status = .modified ∧ ∀ call ∈ calls, k ∉ call.slots := by
  rcases h.status k with ⟨-, hstatus⟩ | ⟨hnone, hstatus⟩
  · rw [hk] at hstatus
    cases hstatus
  · exact ⟨hstatus ▸ hk, hnone⟩

theorem Sound.stretch_nodup (h : Sound call) : (stretch call.start call.slots.length).Nodup := by
  apply DiskCache.stretch_nodup (c := call.before)
  intro t ht
  rw [← h.sectors] at ht
  obtain ⟨k, hk, hsector⟩ := mem_map.mp ht
  exact ⟨k, h.slots k hk, hsector⟩

theorem Sound.nodup (h : Sound call) : call.slots.Nodup := by
  apply List.Nodup.of_map fun k => (call.before.item k).sector
  rw [h.sectors]
  exact h.stretch_nodup

/-! ## Refused calls -/

def World.reliable (w : World) : World := { w with write := fun _ _ _ => none }

def World.refusal (w : World) (call : WriteCall α) : Option Failure :=
  w.write call.time call.start call.slots.length

def askedCall (f : Flush α) (slots : List Nat) (start : BitVec 64) (scattered : Bool) : WriteCall α :=
  { before := f.cache, time := f.time, start, slots, scattered
    buffer := slots.map fun k => (f.cache.item k).data
    numSectors := slots.length }

namespace WriteCall

def failed (call : WriteCall α) : Cache α :=
  if call.scattered then call.before.markCopies call.slots else call.before

def cut (call : WriteCall α) (e : Failure) : WriteCall α :=
  { call with numSectors := min e.numSectors call.slots.length }

end WriteCall

/-- `r` is where the flush ends if none of its calls is refused, and `r'` where it does end. -/
inductive Cut (w : World) (f : Flush α) (r : Flush α × BitVec 32) : List (WriteCall α) → Flush α × BitVec 32 → Prop
  | through {calls : List (WriteCall α)} (hasked : ∀ call ∈ calls, w.refusal call = none) : Cut w f r calls r
  | short {calls rest : List (WriteCall α)} {call : WriteCall α} {e : Failure} {f' : Flush α}
    (hasked : ∀ x ∈ calls, w.refusal x = none) (hrefused : w.refusal call = some e)
    (hcache : f'.cache = call.failed) (hcalls : f'.calls = f.calls ++ calls ++ [call.cut e]) :
    Cut w f r (calls ++ call :: rest) (f', e.eax)

/-- The calls of a flush with the reliable driver. -/
structure Plan (calm : Prop) (c : Cache α) (calls : List (WriteCall α)) (c' : Cache α) : Prop where
  chain : Calls c calls c'
  modified : ∀ call ∈ calls, ∀ t ∈ stretch call.start call.slots.length, Modified c t
  dirty : calm → ∀ call ∈ calls, ∀ k ∈ call.slots, (call.before.item k).status = .modified

variable {calm : Prop} {Q Q' : Flush α → Prop} {o o' : Option (Flush α × BitVec 32)}

theorem Plan.dirty_before (h : Plan calm c calls c') {s : BitVec 64} (hk : Dirty c' k s) : Dirty c k s := by
  rw [h.chain.cache_eq] at hk
  exact hk.of_markCopies

theorem Plan.stays_calm (h : Plan calm c calls c') (hcalm : calm) (hc : Calm c) : Calm c' := by
  obtain ⟨hchain, -, hdirty⟩ := h
  replace hdirty := hdirty hcalm
  induction calls generalizing c with
  | nil => cases hchain; exact hc
  | cons call calls ih =>
    obtain ⟨rfl, -, hrest⟩ := hchain
    exact ih (hc.markCopies (hdirty call mem_cons_self)) hrest fun x hx => hdirty x (mem_cons_of_mem _ hx)

theorem Plan.trans {c'' : Cache α} (h : Plan calm c calls c') (h' : Plan calm c' calls' c'') :
    Plan calm c (calls ++ calls') c'' where
  chain := h.chain.append h'.chain
  modified call hcall t ht := (mem_append.mp hcall).elim (fun hc => h.modified call hc t ht)
    fun hc => (h'.modified call hc t ht).imp fun _ hk => h.dirty_before hk
  dirty hcalm call hcall := (mem_append.mp hcall).elim (h.dirty hcalm call) (h'.dirty hcalm call)

/-- `o` is the flush from `f` on, and `o'` the one with the reliable driver. -/
def Flushes (w : World) (calm : Prop) (f : Flush α) (Q : Flush α → Prop) (o' o : Option (Flush α × BitVec 32)) : Prop :=
  ∃ calls r r', o' = some r ∧ o = some r' ∧ r.1.calls = f.calls ++ calls ∧ Plan calm f.cache calls r.1.cache ∧
    Cut w f r calls r' ∧ ((∀ t n, tempBuffer w t f.cache.sectorSizeLog n ≠ none) → r.2 = 0) ∧ (r.2 = 0 → Q r.1)

theorem Flushes.same {f' : Flush α} (hcache : f'.cache = f.cache) (hcalls : f'.calls = f.calls)
    (hbuffer : (∀ t n, tempBuffer w t f.cache.sectorSizeLog n ≠ none) → eax = 0) (hQ : eax = 0 → Q f') :
    Flushes w calm f Q (some (f', eax)) (some (f', eax)) :=
  ⟨[], _, _, rfl, rfl, by simpa using hcalls, ⟨hcache, by simp, by simp⟩, .through (by simp), hbuffer, hQ⟩

theorem Flushes.mono (h : Flushes w calm f Q o' o)
    (hQ : ∀ f' calls, Plan calm f.cache calls f'.cache → Q f' → Q' f') : Flushes w calm f Q' o' o := by
  obtain ⟨calls, r, r', ho', ho, hcalls, hplan, hcut, hbuffer, hr⟩ := h
  exact ⟨calls, r, r', ho', ho, hcalls, hplan, hcut, hbuffer, fun heax => hQ _ calls hplan (hr heax)⟩

theorem onSuccess_ok (f : Flush α) (next : Flush α → Option (Flush α × BitVec 32)) :
    onSuccess (some (f, 0)) next = next f := rfl

theorem onSuccess_error (h : eax ≠ 0) (f : Flush α) (next : Flush α → Option (Flush α × BitVec 32)) :
    onSuccess (some (f, eax)) next = some (f, eax) := if_pos h

theorem Flushes.onSuccess {next' next : Flush α → Option (Flush α × BitVec 32)} (h : Flushes w calm f Q o' o)
    (hnext : ∀ f1 calls, Q f1 → Plan calm f.cache calls f1.cache → Flushes w calm f1 Q' (next' f1) (next f1)) :
    Flushes w calm f Q' (onSuccess o' next') (onSuccess o next) := by
  obtain ⟨calls, ⟨f1, eax⟩, r', rfl, rfl, hcalls, hplan, hcut, hbuffer, hQ⟩ := h
  by_cases heax : eax = 0
  · subst heax
    obtain ⟨calls2, r2, r2', ho', ho, hcalls2, hplan2, hcut2, hbuffer2, hQ2⟩ := hnext f1 calls (hQ rfl) hplan
    have hall : r2.1.calls = f.calls ++ (calls ++ calls2) := by
      rw [hcalls2, hcalls, append_assoc]
    have hlog : f1.cache.sectorSizeLog = f.cache.sectorSizeLog := by
      rw [hplan.chain.cache_eq, markCopies_sectorSizeLog]
    rw [hlog] at hbuffer2
    rw [onSuccess_ok]
    cases hcut with
    | through hasked =>
      refine ⟨calls ++ calls2, r2, r2', ho', ho, hall, hplan.trans hplan2, ?_, hbuffer2, hQ2⟩
      have hboth : ∀ {l : List (WriteCall α)}, (∀ x ∈ l, w.refusal x = none) → ∀ x ∈ calls ++ l, w.refusal x = none :=
        fun hl x hx => (mem_append.mp hx).elim (hasked x) (hl x)
      cases hcut2 with
      | through hasked2 => exact .through (hboth hasked2)
      | short hasked2 hrefused hcache hcalls' =>
        rw [← append_assoc]
        refine .short (hboth hasked2) hrefused hcache ?_
        rw [hcalls', hcalls]
        simp
    | @short calls rest call e f' hasked hrefused hcache hcalls' =>
      refine ⟨calls ++ call :: rest ++ calls2, r2, (f', e.eax), ho', onSuccess_error e.nonzero ..,
        hall, hplan.trans hplan2, ?_, hbuffer2, hQ2⟩
      rw [append_assoc, cons_append]
      exact .short hasked hrefused hcache hcalls'
  · refine ⟨calls, (f1, eax), r', onSuccess_error heax .., ?_, hcalls, hplan, hcut, hbuffer, fun h => absurd h heax⟩
    cases hcut with
    | through => exact onSuccess_error heax ..
    | @short calls rest call e f' => exact onSuccess_error e.nonzero ..

theorem call_driver_flushes {slots : List Nat} {start : BitVec 64} {scattered : Bool} {failed : Cache α}
    (hsound : Sound (askedCall f slots start scattered))
    (hfailed : failed = (askedCall f slots start scattered).failed)
    (hmod : ∀ t ∈ stretch start slots.length, Modified f.cache t)
    (hdirty : calm → ∀ k ∈ slots, (f.cache.item k).status = .modified) :
    Flushes w calm f (fun f' => f'.cache = f.cache.markCopies slots)
      (some (callDriver w.reliable f slots start scattered (f.cache.markCopies slots) failed))
      (some (callDriver w f slots start scattered (f.cache.markCopies slots) failed)) := by
  refine ⟨[askedCall f slots start scattered], _, _, rfl, rfl, rfl, ⟨⟨rfl, hsound, rfl⟩, ?_, ?_⟩, ?_, fun _ => rfl,
    fun _ => rfl⟩
  · simpa [askedCall] using hmod
  · simpa [askedCall] using hdirty
  cases h : w.write f.time start slots.length with
  | none =>
    have : callDriver w f slots start scattered (f.cache.markCopies slots) failed =
        callDriver w.reliable f slots start scattered (f.cache.markCopies slots) failed := by
      simp [callDriver, World.reliable, h]
    rw [this]
    exact .through (by simpa [World.refusal, askedCall] using h)
  | some e =>
    have hrefused : w.refusal (askedCall f slots start scattered) = some e := h
    simp only [callDriver, h]
    exact @Cut.short _ _ _ _ [] _ _ _ _ (by simp) hrefused (by simpa using hfailed)
      (by simp [WriteCall.cut, askedCall, sectorsDone])

theorem sequential_sound (h : ChainSpec f.cache esi chain lo) (hseq : chain.sequential = true) :
    Sound (askedCall f (List.range' chain.start chain.size) (f.cache.item chain.start).sector false) := by
  obtain ⟨hstart, hdirty⟩ := h.sequential hseq
  refine ⟨?_, ?_, rfl, rfl⟩
  · intro k hk
    obtain ⟨j, hj, rfl⟩ := mem_range'.mp hk
    rw [hstart, Nat.one_mul]
    exact (hdirty j hj).slot
  simp only [askedCall, length_range', h.start.sector]
  apply map_range'
  intro j hj
  rw [hstart]
  exact (hdirty j hj).sector

theorem iteration_sound (hk : Slot f.cache k) (h : ∀ t ∈ stretch (f.cache.item k).sector n, Present f.cache t) :
    Sound (askedCall f (copyLoop n k f.cache).1 (f.cache.item k).sector true) := by
  obtain ⟨-, hslots, hsectors, -⟩ := copy_loop_spec n k f.cache hk h
  refine ⟨hslots, ?_, rfl, rfl⟩
  simpa [askedCall, length_copyLoop] using hsectors

theorem write_iterations_flushes (fuel chainSize iterationSize k : Nat) (lo : BitVec 64) (f : Flush α)
    (hsize : 0 < chainSize) (hfuel : chainSize ≤ fuel) (hiter : 0 < iterationSize) (hcalm : calm → Calm f.cache)
    (hk : Slot f.cache k) (hlo : (f.cache.item k).sector = lo) (hdirty : calm → (f.cache.item k).status = .modified)
    (h : ∀ t ∈ stretch lo chainSize, Modified f.cache t) :
    Flushes w calm f (fun f' => (f'.cache.item k).status ≠ .modified ∧
        (calm → ∀ t ∈ stretch lo chainSize, ¬ Modified f'.cache t))
      (writeIterations w.reliable fuel chainSize iterationSize k f)
      (writeIterations w fuel chainSize iterationSize k f) := by
  induction fuel generalizing chainSize iterationSize k lo f with
  | zero => omega
  | succ fuel ih =>
    simp only [writeIterations]
    generalize hn : min iterationSize chainSize = n
    have hmod : ∀ t ∈ stretch lo n, Modified f.cache t := fun t ht => h t (mem_stretch_mono (by omega) ht)
    have hpresent : ∀ t ∈ stretch (f.cache.item k).sector n, Present f.cache t := by
      rw [hlo]
      exact fun t ht => (hmod t ht).present
    obtain ⟨hcache, hslots, hsectors, hnext⟩ := copy_loop_spec n k f.cache hk hpresent
    have hloop : calm → _ := fun hc => copy_loop_dirty n k lo f.cache (hcalm hc) ⟨hk, hlo, hdirty hc⟩ hmod
    rw [hlo] at hsectors hnext
    rw [hcache]
    refine (call_driver_flushes (iteration_sound hk hpresent) (by simp [WriteCall.failed, askedCall])
      (by rwa [length_copyLoop, hlo]) fun hc => (hloop hc).1).onSuccess fun f1 calls hf1 hplan => ?_
    have hk1 : (f1.cache.item k).status ≠ .modified := by
      rw [hf1, markCopies_status, if_pos (mem_copyLoop (by omega) k f.cache)]
      decide
    -- The slots of these sectors are marked.
    have hclean : calm → ∀ t ∈ stretch lo n, ¬ Modified f1.cache t := by
      rintro hc t ht ⟨j, hj⟩
      rw [hf1] at hj
      rw [← hsectors] at ht
      obtain ⟨i, hi, hsector⟩ := mem_map.mp ht
      rw [(hcalm hc).distinct.dirty hj.of_markCopies ⟨hslots i hi, hsector, (hloop hc).1 i hi⟩] at hj
      exact (markCopies_modified hj.status).1 hi
    split_ifs with hleft
    · exact .same rfl rfl (fun _ => rfl) fun _ => ⟨hk1, by rwa [show chainSize = n by omega]⟩
    have hsplit : chainSize = n + (chainSize - n) := by omega
    have hnodup := stretch_nodup fun t ht => (h t ht).has_slot
    rw [hsplit, stretch_append] at hnodup h
    -- What is left of the chain has none of the slots that were marked.
    have hrest : ∀ t ∈ stretch (lo + BitVec.ofNat 64 n) (chainSize - n), ∀ j, Dirty f.cache j t →
        Dirty f1.cache j t := by
      intro t ht j hj
      rw [hf1]
      refine hj.markCopies fun hmarked => ?_
      have : t ∈ stretch lo n := by
        rw [← hsectors, ← hj.sector]
        exact mem_map_of_mem hmarked
      exact (disjoint_of_nodup_append hnodup) this ht
    have hfirst : lo + BitVec.ofNat 64 n ∈ stretch (lo + BitVec.ofNat 64 n) (chainSize - n) :=
      mem_stretch.mpr ⟨0, by omega, by simp⟩
    have hmore : ∀ t ∈ stretch (lo + BitVec.ofNat 64 n) (chainSize - n), Modified f.cache t :=
      fun t ht => h t (mem_append_right _ ht)
    obtain ⟨hslot, hsector⟩ := hnext (hmore _ hfirst).present
    refine (ih (chainSize - n) n _ (lo + BitVec.ofNat 64 n) f1 (by omega) (by omega) (by omega)
      (fun hc => hplan.stays_calm hc (hcalm hc)) (by simpa [hf1, Slot] using hslot)
      (by rw [hf1, markCopies_sector, hsector]) (fun hc => ?_)
      fun t ht => (hmore t ht).imp fun i hi => hrest t ht i hi).mono ?_
    · obtain ⟨j, hj⟩ := hmore _ hfirst
      rw [(hloop hc).2 j hj]
      exact (hrest _ hfirst j hj).status
    rintro f' calls' hplan' ⟨-, hclean'⟩
    refine ⟨fun hmod' => hk1 (hplan'.chain.modified_before hmod').1, fun hc t ht => ?_⟩
    rw [hsplit, stretch_append, mem_append] at ht
    rcases ht with ht | ht
    · exact fun hmod' => hclean hc t ht (hmod'.imp fun _ hj => hplan'.dirty_before hj)
    · exact hclean' hc t ht

theorem temp_buffer_pos {time log m : Nat} (hn : 0 < n) (h : tempBuffer w time log n = some m) : 0 < m := by
  simp only [tempBuffer] at h
  split_ifs at h
  have := Option.some.inj h
  omega

theorem write_non_sequential_flushes (h : ChainSpec f.cache esi chain lo) (hcalm : calm → Calm f.cache) :
    Flushes w calm f (fun f' => (f'.cache.item chain.start).status ≠ .modified ∧
        (calm → ∀ t ∈ stretch lo chain.size, ¬ Modified f'.cache t))
      (writeNonSequential w.reliable chain f) (writeNonSequential w chain f) := by
  have hsize : 0 < chain.size := by simpa using length_pos_of_mem h.mem
  unfold writeNonSequential
  have hmem : tempBuffer w.reliable f.time f.cache.sectorSizeLog chain.size =
      tempBuffer w f.time f.cache.sectorSizeLog chain.size := rfl
  rw [hmem]
  cases hbuffer : tempBuffer w f.time f.cache.sectorSizeLog chain.size with
  | none => exact .same rfl rfl (fun hb => absurd hbuffer (hb _ _)) fun heax => absurd heax (by decide)
  | some m =>
    obtain ⟨calls, r, r', h1, h2, h3, h4, hcut, h6⟩ := write_iterations_flushes (w := w) chain.size chain.size m
      chain.start lo { f with time := f.time + 1 } hsize le_rfl (temp_buffer_pos hsize hbuffer) hcalm h.start.slot
      h.start.sector (fun _ => h.start.status) h.modified
    refine ⟨calls, r, r', h1, h2, h3, h4, ?_, h6⟩
    cases hcut with
    | through hasked => exact .through hasked
    | short hasked hrefused hcache hcalls => exact .short hasked hrefused hcache hcalls

def Ahead (c : Cache α) (sizeLeft k : Nat) : Prop := k ≤ c.sadSize ∧ c.sadSize < k + sizeLeft

/-- In a calm cache all of the last `sizeLeft` items are clean in the end. -/
structure Looked (calm : Prop) (sizeLeft : Nat) (f f' : Flush α) : Prop where
  all : calm → ∀ k, Ahead f.cache sizeLeft k → (f'.cache.item k).status ≠ .modified
  one : ∀ k, Ahead f.cache sizeLeft k → (f.cache.item k).status = .modified →
    ∃ j s, Dirty f.cache j s ∧ (f'.cache.item j).status ≠ .modified

theorem looked_none (f f' : Flush α) : Looked calm 0 f f' := by
  have hnone : ∀ k, ¬ Ahead f.cache 0 k := by
    unfold Ahead
    omega
  exact ⟨fun _ k hk => absurd hk (hnone k), fun k hk => absurd hk (hnone k)⟩

theorem look_flushes (fuel sizeLeft : Nat) (f : Flush α) (hfuel : sizeLeft ≤ fuel)
    (hleft : sizeLeft ≤ f.cache.sadSize) (hcalm : calm → Calm f.cache) :
    Flushes w calm f (Looked calm sizeLeft f) (look w.reliable fuel sizeLeft f) (look w fuel sizeLeft f) := by
  induction fuel generalizing sizeLeft f with
  | zero =>
    obtain rfl : sizeLeft = 0 := by omega
    exact .same rfl rfl (fun _ => rfl) fun _ => looked_none f f
  | succ fuel ih =>
    cases sizeLeft with
    | zero => exact .same rfl rfl (fun _ => rfl) fun _ => looked_none f f
    | succ sizeLeft =>
      simp only [look]
      generalize hesi : f.cache.sadSize - sizeLeft = esi
      have hahead : ∀ k, Ahead f.cache (sizeLeft + 1) k → ¬ Ahead f.cache sizeLeft k → k = esi := by
        unfold Ahead
        omega
      split_ifs with hmod
      · have hdirty : Dirty f.cache esi (f.cache.item esi).sector := ⟨⟨by omega, by omega⟩, rfl, hmod⟩
        obtain ⟨chain, lo, hfound, hchain⟩ := find_chain_spec hdirty
        have hsize : 0 < chain.size := by simpa using length_pos_of_mem hchain.mem
        simp only [hfound]
        -- The loop goes on behind the calls for this chain.
        have hgo : ∀ (f1 : Flush α) (calls : List (WriteCall α)) (left : Nat), left ≤ sizeLeft →
            Plan calm f.cache calls f1.cache → (f1.cache.item chain.start).status ≠ .modified →
            (calm → ∀ k, Ahead f.cache (sizeLeft + 1) k → ¬ Ahead f.cache left k →
              (f1.cache.item k).status ≠ .modified) →
            Flushes w calm f1 (Looked calm (sizeLeft + 1) f) (look w.reliable fuel left f1) (look w fuel left f1) := by
          intro f1 calls left hle hplan hstart hnew
          have hsad := hplan.chain.sadSize
          refine (ih left f1 (by omega) (by omega) fun hc => hplan.stays_calm hc (hcalm hc)).mono ?_
          intro f' calls' hplan' hlooked
          refine ⟨fun hc k hk hmod' => ?_, fun _ _ _ => ⟨chain.start, lo, hchain.start,
            fun hmod' => hstart (hplan'.chain.modified_before hmod').1⟩⟩
          by_cases hk' : Ahead f.cache left k
          · exact hlooked.all hc k (by rwa [Ahead, hsad]) hmod'
          · exact hnew hc k hk hk' (hplan'.chain.modified_before hmod').1
        split_ifs with hseq
        · obtain ⟨hstart, hall⟩ := hchain.sequential hseq
          have hin : ∀ k, esi ≤ k → k < esi + chain.size → k ∈ List.range' chain.start chain.size :=
            fun k hlo hhi => mem_range'_1.mpr ⟨by omega, by omega⟩
          refine (call_driver_flushes (sequential_sound hchain hseq) rfl ?_ fun _ k hk => ?_).onSuccess
            fun f1 calls hf1 hplan => hgo f1 calls _ (by omega) hplan ?_ fun _ k hk hk' => ?_
          · rw [length_range', hchain.start.sector]
            exact hchain.modified
          · obtain ⟨j, hj, rfl⟩ := mem_range'.mp hk
            rw [hstart, Nat.one_mul]
            exact (hall j hj).status
          · rw [hf1, markCopies_status, if_pos (hin _ (by omega) (by omega))]
            decide
          · unfold Ahead at hk hk'
            rw [hf1, markCopies_status, if_pos (hin k (by omega) (by omega))]
            decide
        · refine (write_non_sequential_flushes hchain hcalm).onSuccess fun f1 calls hf1 hplan =>
            hgo f1 calls sizeLeft le_rfl hplan hf1.1 fun hc k hk hk' hmod' => ?_
          obtain rfl := hahead k hk hk'
          exact hf1.2 hc _ hchain.mem ⟨k, by simpa [Slot, hplan.chain.sadSize] using hdirty.slot,
            by rw [hplan.chain.cache_eq, markCopies_sector], hmod'⟩
      · refine (ih sizeLeft f (by omega) (by omega) hcalm).mono fun f' calls hplan hlooked => ⟨fun hc k hk hmod' => ?_,
          fun k hk hmod' => ?_⟩
        · by_cases hk' : Ahead f.cache sizeLeft k
          · exact hlooked.all hc k hk' hmod'
          · exact hmod (hahead k hk hk' ▸ (hplan.chain.modified_before hmod').1)
        · by_cases hk' : Ahead f.cache sizeLeft k
          · exact hlooked.one k hk' hmod'
          · exact absurd (hahead k hk hk' ▸ hmod') hmod

theorem write_cache64_flushes (w : World) (c : Cache α) (time : Nat) :
    Flushes w (Calm c) ⟨c, time, []⟩ (fun f' => c.pointer = true → Looked (Calm c) c.sadSize ⟨c, time, []⟩ f')
      (writeCache64 w.reliable c time) (writeCache64 w c time) := by
  unfold writeCache64
  split_ifs with hpointer
  · exact (look_flushes c.sadSize c.sadSize _ le_rfl le_rfl id).mono fun _ _ _ h _ => h
  · exact .same rfl rfl (fun _ => rfl) fun _ h => absurd h hpointer

/-! ## A failed flush -/

def refused (w : World) (call : WriteCall α) : Option (WriteCall α × Failure) :=
  (w.refusal call).map fun e => (call, e)

def Written (f : Flush α) (k : Nat) : Prop :=
  ∃ call ∈ f.calls, k ∈ call.slots.take call.numSectors

section Refused

variable {c : Cache α} {f : Flush α} {calls : List (WriteCall α)} {call : WriteCall α} {e : Failure}

end Refused

end Kolibri.DiskCache
