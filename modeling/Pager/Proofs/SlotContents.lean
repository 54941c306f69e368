import Pager.Proofs.SlotHistories

namespace Pager

def Disk.requests (d : Disk) : Nat := d.readTrap.seen + d.writeTrap.seen

def Disk.Reaches (d : Disk) (slot : Slot) : Prop :=
  ∀ i < sectorsPerPage, slot.index * sectorsPerPage + i < d.count

/-- When `k` more sectors have been read, or written, the disk fails to do so with the
next one. -/
def Disk.Fails (d : Disk) (k : Nat) : Prop :=
  d.readTrap.fires (d.readTrap.seen + k) = true ∨ d.writeTrap.fires (d.writeTrap.seen + k) = true

structure Disk.Next (trap : Disk → Trap) (d d' : Disk) : Prop where
  count : d'.count = d.count
  counted : trap d' = { trap d with seen := (trap d).seen + 1 }
  requests : d'.requests = d.requests + 1

namespace Swap

open Step

def requests (w : Swap) : Nat := (w.disk.map Disk.requests).getD 0

/-- The operation asks for one sector. It fails only if the disk fails the request or
has no such sector. -/
def AsksFor (trap : Disk → Trap) (n : Nat) (x : Step Swap Unit) : Prop :=
  ∀ w d, w.disk = some d → Ends x w
    (fun _ t => ∃ d', t.disk = some d' ∧ d.Next trap d')
    (fun f t => (∃ d', t.disk = some d' ∧ d.Next trap d') ∧ f = .errno .eio ∧
      ((trap d).fires (trap d).seen = true ∨ d.count ≤ n))

theorem read_asksFor (n : Nat) : AsksFor Disk.readTrap n (discard (onDisk (Disk.read n))) := by
  intro w d hd
  have hnext (x : Swap) (r : Trap) (hr : r = { d.readTrap with seen := d.readTrap.seen + 1 }) :
      ∃ d', ({ x with disk := some { d with readTrap := r } } : Swap).disk = some d' ∧
        d.Next Disk.readTrap d' :=
    ⟨_, rfl, rfl, hr, by rw [hr]; exact Nat.add_right_comm ..⟩
  rw [ends_discard]
  unfold Ends onDisk
  simp only [hd, zoom, Disk.read, Trap.ask]
  cases hf : d.readTrap.fires d.readTrap.seen with
  | false =>
      by_cases hn : n < d.count
      · simp only [if_pos hn]
        exact hnext w _ rfl
      · simp only [if_neg hn]
        exact ⟨hnext w _ rfl, trivial, .inr (Nat.le_of_not_lt hn)⟩
  | true => exact ⟨hnext w _ rfl, rfl, .inl rfl⟩

theorem write_asksFor (n : Nat) (x : SectorBytes) :
    AsksFor Disk.writeTrap n (onDisk (Disk.write n x)) := by
  intro w d hd
  unfold Ends onDisk
  simp only [hd, zoom, Disk.write, Trap.ask]
  cases hf : d.writeTrap.fires d.writeTrap.seen with
  | false =>
      by_cases hn : n < d.count
      · simp only [if_pos hn]
        exact ⟨_, rfl, rfl, rfl, rfl⟩
      · simp only [if_neg hn]
        exact ⟨⟨_, rfl, rfl, rfl, rfl⟩, trivial, .inr (Nat.le_of_not_lt hn)⟩
  | true => exact ⟨⟨_, rfl, rfl, rfl, rfl⟩, rfl, .inl rfl⟩

variable {w t : Swap} {slot : Slot} {d : Disk} {ask : Nat → Nat → Step Swap Unit}
  {trap : Disk → Trap} {is : List Nat}

theorem requests_eq (h : w.disk = some d) : w.requests = d.requests := by
  rw [requests, h]
  rfl

def visit (slot : Slot) (ask : Nat → Nat → Step Swap Unit) : List Nat → Step Swap Unit
  | [] => pure ()
  | i :: is => do
      let n ← ofExcept (sector slot i)
      ask i n
      visit slot ask is

/-- The sectors that are asked for, the last of which may be one that fails. -/
def trail (slot : Slot) (ask : Nat → Nat → Step Swap Unit) : List Nat → Swap → List Nat
  | [], _ => []
  | i :: is, w =>
      match sector slot i with
      | .error _ => []
      | .ok n =>
          match ask i n w with
          | .ok _ t => n :: trail slot ask is t
          | .error _ _ => [n]

def writePart (page : PageBytes) (i n : Nat) : Step Swap Unit :=
  onDisk (Disk.write n (sectorOfPage page i))

def readPart (_ n : Nat) : Step Swap Unit := discard (onDisk (Disk.read n))

theorem writeSectors_eq_visit (slot : Slot) (page : PageBytes) (is : List Nat) :
    writeSectors slot page is = visit slot (writePart page) is := by
  induction is with
  | nil => rfl
  | cons i is ih => rw [writeSectors, visit, ih]; rfl

theorem ends_readSectors {Q : Unit → Swap → Prop} {E : Failure → Swap → Prop} {b : PageBytes}
    (h : Ends (visit slot readPart is) w Q E) :
    Ends (readSectors slot is) (w, b) (fun u t => Q u t.1) (fun f t => E f t.1) := by
  induction is generalizing w b with
  | nil => exact h
  | cons i is ih =>
      simp only [visit, readPart, ends_bind, ends_ofExcept, ends_discard] at h
      simp only [readSectors, ends_bind, ends_ofExcept, ends_zoom, ends_modify]
      refine ⟨fun n hn => ?_, h.2⟩
      exact (h.1 n hn).mono (fun _ _ h => ih h) fun _ _ h => h

theorem mem_trail {n : Nat} (haddr : Addressable slot) (hn : n ∈ trail slot ask is w) :
    ∃ i ∈ is, n = slot.index * sectorsPerPage + i := by
  induction is generalizing w with
  | nil => simp [trail] at hn
  | cons i is ih =>
      rw [trail, sector_eq haddr] at hn
      dsimp only at hn
      have hhead : ∃ j ∈ i :: is, slot.index * sectorsPerPage + i =
          slot.index * sectorsPerPage + j := ⟨i, List.mem_cons_self .., rfl⟩
      cases hx : ask i (slot.index * sectorsPerPage + i) w with
      | ok u t =>
          rw [hx] at hn
          rcases List.mem_cons.mp hn with rfl | hn
          · exact hhead
          · obtain ⟨j, hj, rfl⟩ := ih hn
            exact ⟨j, List.mem_cons_of_mem _ hj, rfl⟩
      | error f t =>
          rw [hx, List.mem_singleton] at hn
          rw [hn]
          exact hhead

theorem visit_ends (hask : ∀ i n, AsksFor trap n (ask i n)) (haddr : Addressable slot)
    (hin : ∀ i ∈ is, slot.index * sectorsPerPage + i < d.count) (hd : w.disk = some d) :
    Ends (visit slot ask is) w
      (fun _ t => t.requests = w.requests + (trail slot ask is w).length)
      (fun f t => t.requests = w.requests + (trail slot ask is w).length ∧ f = .errno .eio ∧
        ∃ k < is.length, (trap d).fires ((trap d).seen + k) = true) := by
  induction is generalizing w d with
  | nil => rfl
  | cons i is ih =>
      have hone {t : Swap} {d' : Disk} (ht : t.disk = some d') (hnext : d.Next trap d') :
          t.requests = w.requests + 1 := by
        rw [requests_eq ht, requests_eq hd, hnext.requests]
      simp only [visit, trail, sector_eq haddr, ends_bind, ends_ofExcept, Except.ok.injEq,
        forall_eq', reduceCtorEq, false_implies, implies_true, and_true]
      refine ((hask i _ w d hd).and (ends_self _ w)).mono ?_ ?_
      · rintro u t ⟨⟨d', ht, hnext⟩, hx⟩
        rw [hx]
        dsimp only
        have hin' : ∀ j ∈ is, slot.index * sectorsPerPage + j < d'.count := fun j hj =>
          hnext.count ▸ hin j (List.mem_cons_of_mem _ hj)
        have hmore := ih hin' ht
        rw [hone ht hnext, Nat.add_assoc, Nat.add_comm 1] at hmore
        refine hmore.mono (fun _ _ h => h) ?_
        rintro f v ⟨hv, hf, k, hk, hfire⟩
        rw [hnext.counted] at hfire
        refine ⟨hv, hf, k + 1, Nat.succ_lt_succ hk, ?_⟩
        rwa [Nat.add_comm k, ← Nat.add_assoc]
      · rintro f t ⟨⟨⟨d', ht, hnext⟩, hf, hwhy⟩, hx⟩
        rw [hx]
        have hfire := hwhy.resolve_right (Nat.not_le.mpr (hin i (List.mem_cons_self ..)))
        exact ⟨hone ht hnext, hf, 0, Nat.succ_pos _, hfire⟩

/-- The page that was written to a slot last, if that did not fail. The latest call
comes first. -/
def lastWrite? (slot : Slot) : List (Call × Reply) → Option PageBytes
  | [] => none
  | (.write o b, r) :: past =>
      if o = slot then if r = .done then some b else none else lastWrite? slot past
  | _ :: past => lastWrite? slot past

namespace Call

def sectors (w : Swap) : Call → List Nat
  | alloc | free _ => []
  | write s b =>
      if w.disk.isSome then trail s (writePart b) (List.range sectorsPerPage) w else []
  | read s _ | takeBack s _ =>
      if w.disk.isSome && w.isUsed s then trail s readPart (List.range sectorsPerPage) w else []

def Stores (slot : Slot) : Call → Prop
  | write o _ => o = slot
  | _ => False

def Fetches (slot : Slot) : Call → Prop
  | read o _ | takeBack o _ => o = slot
  | _ => False

end Call

variable {past : List (Call × Reply)} {c : Call} {r : Reply} {S : Finset Nat} {b : PageBytes}

theorem lastWrite?_cons (h : ¬c.Stores slot) :
    lastWrite? slot ((c, r) :: past) = lastWrite? slot past := by
  cases c with
  | write o b => exact if_neg h
  | _ => rfl

/-- What a call leaves on the disk. -/
structure Call.Leaves (w : Swap) (c : Call) (r : Reply) (t : Swap) : Prop where
  count : t.disk.map Disk.count = w.disk.map Disk.count
  beside : ∀ s, ¬c.Stores s → t.stored s = w.stored s
  wrote : ∀ s b, c = .write s b → r = .done → t.stored s = b

theorem Call.leaves_run (h : w.bitmap.Represents S) (hc : c.Proper S)
    (haddr : ∀ s : Slot, s.index ∈ S → Addressable s) :
    c.Leaves w (c.run w).1 (c.run w).2 := by
  have hsame {c : Call} {r : Reply} {t : Swap}
      (hcount : t.disk.map Disk.count = w.disk.map Disk.count) (hs : t.stored = w.stored)
      (hn : ∀ s b, c ≠ .write s b) : c.Leaves w r t :=
    ⟨hcount, fun s _ => congrFun hs s, fun s b he => absurd he (hn s b)⟩
  refine Ends.run (P := fun r t => c.Leaves w r t) ?_
  cases c with
  | alloc =>
      refine (alloc_firstFree? w).mono ?_ ?_
      · rintro s _ ⟨-, rfl⟩
        exact hsame rfl rfl (by simp)
      · rintro f _ ⟨-, -, rfl⟩
        exact hsame rfl rfl (by simp)
  | free s =>
      refine (free_ends (h.test_iff.mpr hc) (h.used_pos hc)).mono ?_ fun _ _ h => h.elim
      rintro _ _ rfl
      exact hsame rfl rfl (by simp)
  | write s b =>
      refine ((write_sameShape s b w).and (write_ends (haddr s hc))).mono ?_ ?_
      · rintro _ t ⟨ht, -, hst⟩
        refine ⟨ht.count, fun o ho => ?_, ?_⟩
        · rw [hst, Function.update_of_ne (Ne.symm ho)]
        · rintro _ _ ⟨⟩ -
          rw [hst, Function.update_self]
      · rintro f t ⟨ht, -, -, hst⟩
        exact ⟨ht.count, fun o ho => hst o (Ne.symm ho), fun _ _ _ hr => by cases hr⟩
  | read s b =>
      exact (read_undisturbed s (w, b)).mono
        (fun _ _ ht => hsame ht.count ht.stored (by simp))
        fun _ _ ht => hsame ht.count ht.stored (by simp)
  | takeBack s b =>
      refine (takeBack_frees (h.test_iff.mpr hc) (h.used_pos hc)).mono ?_
        fun _ _ ht => hsame ht.count ht.stored (by simp)
      rintro _ ⟨_, _⟩ ⟨v, hv, rfl⟩
      exact hsame hv.count hv.stored (by simp)

/-- The disk is as large as ever, and each slot holds what was last written to it. -/
structure Retains (d : Option Disk) (past : List (Call × Reply)) (w : Swap) : Prop where
  represents : w.bitmap.Represents (held past)
  slots : w.bitmap.slots = (d.map Disk.count).getD 0 / sectorsPerPage
  count : w.disk.map Disk.count = d.map Disk.count
  stored : ∀ s b, lastWrite? s past = some b → w.stored s = b

namespace Retains

variable {d : Option Disk}

theorem inRange (h : Retains d past w) (hs : slot.index ∈ held past) :
    ∃ x, w.disk = some x ∧ x.count = (d.map Disk.count).getD 0 ∧ x.Reaches slot := by
  have hlt := h.represents.lt hs
  have hslots := h.slots
  have hcount := h.count
  cases hw : w.disk with
  | none =>
      rw [hw, Option.map_none] at hcount
      rw [← hcount, Option.getD_none, Nat.zero_div] at hslots
      omega
  | some x =>
      rw [hw, Option.map_some] at hcount
      rw [← hcount, Option.getD_some] at hslots
      refine ⟨x, rfl, by rw [← hcount, Option.getD_some], fun i hi => ?_⟩
      unfold sectorsPerPage at *
      omega

theorem addressable (h : Retains d past w) (hd : ∀ x, d = some x → x.count < wordBound)
    (hs : slot.index ∈ held past) : Addressable slot := by
  obtain ⟨x, -, hx, hin⟩ := h.inRange hs
  have h0 := hin 0 (by decide)
  cases d with
  | none =>
      rw [Option.map_none, Option.getD_none] at hx
      omega
  | some y =>
      have hy := hd y rfl
      rw [Option.map_some, Option.getD_some] at hx
      rw [Addressable]
      omega

theorem cons (h : Retains d past w) (hd : ∀ x, d = some x → x.count < wordBound)
    (hc : c.Proper (held past)) : Retains d ((c, (c.run w).1) :: past) (c.run w).2 := by
  obtain ⟨hr, hslots⟩ := Call.represents_run h.represents hc
  have hl := Call.leaves_run h.represents hc fun s hs => h.addressable hd hs
  refine ⟨hr, hslots.trans h.slots, hl.count.trans h.count, fun s b hb => ?_⟩
  by_cases hs : c.Stores s
  · cases c with
    | write o b' =>
        obtain rfl : o = s := hs
        rw [lastWrite?, if_pos rfl, Option.ite_none_right_eq_some, Option.some.injEq] at hb
        obtain ⟨hdone, rfl⟩ := hb
        exact hl.wrote o b' rfl hdone
    | _ => exact hs.elim
  · rw [hl.beside s hs]
    exact h.stored s b ((lastWrite?_cons hs).symm.trans hb)

end Retains

theorem History.retains {d : Option Disk} (hd : ∀ x, d = some x → x.count < wordBound)
    (h : History (.ofDisk d) past w) : Retains d past w := by
  induction h with
  | nil => exact ⟨represents_ofDisk d, rfl, rfl, fun _ _ h => by cases h⟩
  | cons _ hc ih => exact ih.cons hd hc

def Faulty (w : Swap) : Prop := ∃ d, w.disk = some d ∧ ∃ k < sectorsPerPage, d.Fails k

/-- The disk has had these many requests, and failed one of them if the operation failed. -/
def Costs {α σ : Type} (x : Step σ α) (s : σ) (swap : σ → Swap) (n : Nat) : Prop :=
  Ends x s (fun _ t => (swap t).requests = (swap s).requests + n)
    (fun f t => (swap t).requests = (swap s).requests + n ∧ f = .errno .eio ∧ (swap s).Faulty)

theorem visit_costs (hask : ∀ i n, AsksFor trap n (ask i n)) (haddr : Addressable slot)
    (hin : d.Reaches slot) (hd : w.disk = some d)
    (htrap : ∀ k, (trap d).fires ((trap d).seen + k) = true → d.Fails k) :
    Costs (visit slot ask (List.range sectorsPerPage)) w id
      (trail slot ask (List.range sectorsPerPage) w).length := by
  refine (visit_ends hask haddr (fun i hi => hin i (List.mem_range.mp hi)) hd).mono
    (fun _ _ h => h) ?_
  rintro f t ⟨h, rfl, k, hk, hfire⟩
  exact ⟨h, rfl, d, hd, k, by simpa using hk, htrap k hfire⟩

theorem write_costs (haddr : Addressable slot) (hin : d.Reaches slot) (hd : w.disk = some d) :
    Costs (write slot b) w id (trail slot (writePart b) (List.range sectorsPerPage) w).length := by
  have hsome : w.disk.isSome = true := by rw [hd]; rfl
  simp only [Costs, write, ends_bind, ends_get, ends_require, hsome, true_implies,
    Bool.true_eq_false, false_implies, and_true, writeSectors_eq_visit]
  exact visit_costs (fun _ n => write_asksFor n _) haddr hin hd fun _ => .inr

theorem read_costs (haddr : Addressable slot) (hin : d.Reaches slot) (hd : w.disk = some d)
    (hu : w.isUsed slot = true) :
    Costs (read slot) (w, b) Prod.fst
      (trail slot readPart (List.range sectorsPerPage) w).length := by
  have hsome : w.disk.isSome = true := by rw [hd]; rfl
  simp only [Costs, read, ends_bind, ends_get, ends_require, ends_demand, hsome, hu, true_implies,
    Bool.true_eq_false, false_implies, and_true]
  exact ends_readSectors (visit_costs (fun _ n => read_asksFor n) haddr hin hd fun _ => .inl)

theorem takeBack_costs (haddr : Addressable slot) (hin : d.Reaches slot) (hd : w.disk = some d)
    (hu : w.isUsed slot = true) (hn : 0 < w.bitmap.used) :
    Costs (takeBack slot) (w, b) Prod.fst
      (trail slot readPart (List.range sectorsPerPage) w).length := by
  rw [Costs, takeBack, ends_bind]
  refine ((read_undisturbed slot (w, b)).and (read_costs haddr hin hd hu)).mono ?_ fun _ _ h => h.2
  rintro _ ⟨v, b'⟩ ⟨hv, hreq⟩
  have hv : v.bitmap = w.bitmap := Undisturbed.bitmap hv
  simp only [ends_zoom]
  refine (free_ends (by rwa [isUsed, hv]) (by rwa [hv])).mono ?_ fun _ _ h => h.elim
  rintro _ _ rfl
  exact hreq

/-- The disk has been asked for the sectors that the call names. If the call fails the
disk has failed one of the requests. -/
structure Call.Asked (w : Swap) (c : Call) (r : Reply) (t : Swap) : Prop where
  requests : t.requests = w.requests + (c.sectors w).length
  failed : ∀ f, r = .failed f → c ≠ .alloc → f = .errno .eio ∧ w.Faulty

theorem Call.Asked.of_succeeded (ht : t.requests = w.requests + (c.sectors w).length)
    (hr : ∀ f, r ≠ .failed f) : c.Asked w r t :=
  ⟨ht, fun f hf => absurd hf (hr f)⟩

theorem Costs.asked {α σ : Type} {x : Step σ α} {s : σ} {swap : σ → Swap} {r : α → σ → Reply}
    (h : Costs x s swap (c.sectors (swap s)).length) (hr : ∀ a t f, r a t ≠ .failed f) :
    Ends x s (fun a t => c.Asked (swap s) (r a t) (swap t))
      (fun f t => c.Asked (swap s) (.failed f) (swap t)) := by
  refine h.mono (fun a t ht => .of_succeeded ht (hr a t)) ?_
  rintro f t ⟨ht, hwhy⟩
  exact ⟨ht, by rintro _ ⟨⟩ -; exact hwhy⟩

theorem Retains.asked_run {d : Option Disk} (h : Retains d past w)
    (hd : ∀ x, d = some x → x.count < wordBound) (hc : c.Proper (held past)) :
    c.Asked w (c.run w).1 (c.run w).2 := by
  refine Call.Ends.run (P := fun r t => c.Asked w r t) ?_
  cases c with
  | alloc =>
      refine (alloc_firstFree? w).mono ?_ ?_
      · rintro s _ ⟨-, rfl⟩
        exact .of_succeeded rfl fun _ => Reply.noConfusion
      · rintro f _ ⟨-, -, rfl⟩
        exact ⟨rfl, fun _ _ hn => absurd rfl hn⟩
  | free s =>
      refine (free_ends (h.represents.test_iff.mpr hc) (h.represents.used_pos hc)).mono ?_
        fun _ _ h => h.elim
      rintro _ _ rfl
      exact .of_succeeded rfl fun _ => Reply.noConfusion
  | write s b =>
      obtain ⟨x, hx, -, hin⟩ := h.inRange hc
      have hs : (Call.write s b).sectors w = _ := if_pos (by rw [hx]; rfl)
      have hcosts := write_costs (b := b) (h.addressable hd hc) hin hx
      rw [← hs] at hcosts
      exact hcosts.asked (r := fun _ _ => .done) fun _ _ _ => Reply.noConfusion
  | read s b =>
      obtain ⟨x, hx, -, hin⟩ := h.inRange hc
      have hu : w.isUsed s = true := h.represents.test_iff.mpr hc
      have hs : (Call.read s b).sectors w = _ := if_pos (by rw [hx, hu]; rfl)
      have hcosts := read_costs (b := b) (h.addressable hd hc) hin hx hu
      rw [← hs] at hcosts
      exact hcosts.asked (r := fun _ t => .page t.2) fun _ _ _ => Reply.noConfusion
  | takeBack s b =>
      obtain ⟨x, hx, -, hin⟩ := h.inRange hc
      have hu : w.isUsed s = true := h.represents.test_iff.mpr hc
      have hs : (Call.takeBack s b).sectors w = _ := if_pos (by rw [hx, hu]; rfl)
      have hcosts := takeBack_costs (b := b) (h.addressable hd hc) hin hx hu
        (h.represents.used_pos hc)
      rw [← hs] at hcosts
      exact hcosts.asked (r := fun _ t => .page t.2) fun _ _ _ => Reply.noConfusion

structure Call.Brings (w : Swap) (c : Call) (r : Reply) (t : Swap) : Prop where
  page : ∀ s b, c.Fetches s → r = .page b → b = w.stored s
  nothing : ∀ s f, c.Fetches s → r = .failed f → Undisturbed w t
  givenUp : ∀ s b, c = .takeBack s b → ((∃ b', r = .page b') ↔ t.isUsed s = false)

theorem Call.brings_run (h : w.bitmap.Represents S) (hc : c.Proper S)
    (haddr : ∀ s : Slot, s.index ∈ S → Addressable s) :
    c.Brings w (c.run w).1 (c.run w).2 := by
  cases c with
  | read s b =>
      have hu : w.isUsed s = true := h.test_iff.mpr hc
      refine Ends.run (c := .read s b) (P := fun r t => (Call.read s b).Brings w r t) ?_
      refine ((read_ends (haddr s hc) hu).and (read_undisturbed s (w, b))).mono ?_ ?_
      · rintro _ t ⟨⟨-, -, hp⟩, -⟩
        refine ⟨?_, by simp, by simp⟩
        rintro _ _ rfl hb
        rw [← Reply.page.inj hb, hp]
      · rintro f t ⟨-, ht⟩
        exact ⟨by simp, fun _ _ _ _ => ht, by simp⟩
  | takeBack s b =>
      have hu : w.isUsed s = true := h.test_iff.mpr hc
      have hn := h.used_pos hc
      refine Ends.run (c := .takeBack s b) (P := fun r t => (Call.takeBack s b).Brings w r t) ?_
      refine ((takeBack_ends (haddr s hc) hu hn).and (takeBack_frees hu hn)).mono ?_ ?_
      · rintro _ t ⟨⟨ht, -, hp⟩, -⟩
        refine ⟨?_, by simp, ?_⟩
        · rintro _ _ rfl hb
          rw [← Reply.page.inj hb, hp]
        · rintro _ _ ⟨⟩
          refine iff_of_true ⟨_, rfl⟩ ?_
          rw [isUsed, ht]
          exact (h.unmark hc).test_eq_false (Finset.notMem_erase _ _)
      · rintro f t ⟨-, ht⟩
        refine ⟨by simp, fun _ _ _ _ => ht, ?_⟩
        rintro _ _ ⟨⟩
        refine iff_of_false (by simp) ?_
        rw [isUsed, ht.bitmap]
        exact ne_false_of_eq_true hu
  | _ => exact ⟨fun _ _ => False.elim, fun _ _ => False.elim, by simp⟩

/-- A call deals with the sectors of its slot only, all of them on the disk, and brings
back what was written there. -/
structure Call.Faithful (d : Option Disk) (past : List (Call × Reply)) (w : Swap) (c : Call)
    (r : Reply) (t : Swap) : Prop extends Call.Brings w c r t, Call.Asked w c r t where
  lastWritten : ∀ s b b', c.Fetches s → r = .page b → lastWrite? s past = some b' → b = b'
  beside : ∀ s, ¬c.Stores s → t.stored s = w.stored s
  onDisk : ∀ n ∈ c.sectors w, n < (d.map Disk.count).getD 0

theorem Retains.sectors_lt {d : Option Disk} (h : Retains d past w)
    (hd : ∀ x, d = some x → x.count < wordBound) (hc : c.Proper (held past)) {n : Nat}
    (hn : n ∈ c.sectors w) : n < (d.map Disk.count).getD 0 := by
  have htrail {s : Slot} {ask : Nat → Nat → Step Swap Unit} (hs : s.index ∈ held past)
      (hn : n ∈ trail s ask (List.range sectorsPerPage) w) : n < (d.map Disk.count).getD 0 := by
    obtain ⟨x, -, hx, hin⟩ := h.inRange hs
    obtain ⟨i, hi, rfl⟩ := mem_trail (h.addressable hd hs) hn
    exact hx ▸ hin i (List.mem_range.mp hi)
  cases c with
  | alloc => simp [Call.sectors] at hn
  | free => simp [Call.sectors] at hn
  | write s b => exact htrail hc (List.mem_ite_nil_right.mp hn).2
  | read s b => exact htrail hc (List.mem_ite_nil_right.mp hn).2
  | takeBack s b => exact htrail hc (List.mem_ite_nil_right.mp hn).2

/-- After any calls that name slots in use only, on a disk that fails whichever requests
it likes, a page that comes back is the one that was written last. -/
theorem History.faithful {d : Option Disk} (hd : ∀ x, d = some x → x.count < wordBound)
    (h : History (.ofDisk d) past w) (hc : c.Proper (held past)) :
    c.Faithful d past w (c.run w).1 (c.run w).2 := by
  have hret := h.retains hd
  have haddr (s : Slot) (hs : s.index ∈ held past) : Addressable s := hret.addressable hd hs
  have hbrings := Call.brings_run hret.represents hc haddr
  refine ⟨hbrings, hret.asked_run hd hc, ?_, ?_, fun n => hret.sectors_lt hd hc⟩
  · intro s b b' hs hb hb'
    rw [hbrings.page s b hs hb, hret.stored s b' hb']
  · exact (Call.leaves_run hret.represents hc haddr).beside

/-- A page comes back from the last slot of a disk that has failed the first request
to read. -/
theorem faithful_after_failure :
    ∃ d : Disk, d.count < wordBound ∧ ∃ page past w, History (.ofDisk (some d)) past w ∧
      past.map Prod.snd = [.failed (.errno .eio), .done, .slot ⟨1⟩, .slot ⟨0⟩] ∧
      ((Call.takeBack ⟨1⟩ (Bytes.zero pageSize)).run w).1 = .page page := by
  let d : Disk := { count := 17, readTrap := .after 0 1 }
  let page : PageBytes := Vector.replicate pageSize 7
  let back : Call := .takeBack ⟨1⟩ (Bytes.zero pageSize)
  have hfirst : History (.ofDisk (some d)) [(.alloc, .slot ⟨0⟩)] _ :=
    History.nil.cons_of_eq trivial (by decide +kernel)
  have hboth := hfirst.cons_of_eq (c := .alloc) (r := .slot ⟨1⟩) trivial (by decide +kernel)
  have hwritten := hboth.cons_of_eq (c := .write ⟨1⟩ page) (r := .done)
    (show 1 ∈ held _ by decide) (by decide +kernel)
  have hfailed := hwritten.cons_of_eq (c := back) (r := .failed (.errno .eio))
    (show 1 ∈ held _ by decide) (by decide +kernel)
  have hfaithful := History.faithful (by rintro _ ⟨⟩; decide) hfailed (c := back)
    (show 1 ∈ held _ by decide)
  obtain ⟨b, hb⟩ := (hfaithful.givenUp _ _ rfl).mpr (by decide +kernel)
  have hpage : b = page := hfaithful.lastWritten _ b page rfl hb rfl
  exact ⟨d, by decide, page, _, _, hfailed, rfl, hb.trans (congrArg _ hpage)⟩

end Swap

end Pager
