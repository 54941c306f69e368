import Pager.Proofs.FirstFit
import Pager.Proofs.Leads
import Pager.Proofs.SlotBytes

namespace Pager.Swap

open Step

/-- What a swap area is asked to do. A read fills a page that holds something
already. -/
inductive Call
  | alloc
  | free (slot : Slot)
  | write (slot : Slot) (page : PageBytes)
  | read (slot : Slot) (page : PageBytes)
  | takeBack (slot : Slot) (page : PageBytes)

inductive Reply
  | slot (s : Slot)
  | done
  | page (b : PageBytes)
  | failed (f : Failure)
deriving DecidableEq

def Reply.of {α σ : Type} (reply : α → σ → Reply) : EStateM.Result Failure σ α → Reply × σ
  | .ok a t => (reply a t, t)
  | .error f t => (failed f, t)

namespace Call

def run (w : Swap) : Call → Reply × Swap
  | alloc => Reply.of (fun s _ => .slot s) (Swap.alloc w)
  | free s => Reply.of (fun _ _ => .done) (Swap.free s w)
  | write s b => Reply.of (fun _ _ => .done) (Swap.write s b w)
  | read s b => (Reply.of (fun _ t => .page t.2) (Swap.read s (w, b))).map id Prod.fst
  | takeBack s b => (Reply.of (fun _ t => .page t.2) (Swap.takeBack s (w, b))).map id Prod.fst

def Ends (w : Swap) (P : Reply → Swap → Prop) : Call → Prop
  | alloc => Step.Ends Swap.alloc w (fun s => P (.slot s)) (fun f => P (.failed f))
  | free s => Step.Ends (Swap.free s) w (fun _ => P .done) (fun f => P (.failed f))
  | write s b => Step.Ends (Swap.write s b) w (fun _ => P .done) (fun f => P (.failed f))
  | read s b => Step.Ends (Swap.read s) (w, b) (fun _ t => P (.page t.2) t.1)
      (fun f t => P (.failed f) t.1)
  | takeBack s b => Step.Ends (Swap.takeBack s) (w, b) (fun _ t => P (.page t.2) t.1)
      (fun f t => P (.failed f) t.1)

theorem Ends.run {w : Swap} {P : Reply → Swap → Prop} {c : Call} (h : c.Ends w P) :
    P (c.run w).1 (c.run w).2 := by
  have hof {α σ : Type} {x : Step σ α} {s : σ} {reply : α → σ → Reply} {P : Reply → σ → Prop}
      (h : Step.Ends x s (fun a t => P (reply a t) t) (fun f t => P (.failed f) t)) :
      P (Reply.of reply (x s)).1 (Reply.of reply (x s)).2 := by
    cases hx : x s with
    | ok a t => exact h.of_ok hx
    | error f t => exact h.of_error hx
  cases c with
  | alloc => exact hof h
  | free s => exact hof h
  | write s b => exact hof h
  | read s b => exact hof (P := fun r (t : Swap × PageBytes) => P r t.1) h
  | takeBack s b => exact hof (P := fun r (t : Swap × PageBytes) => P r t.1) h

/-- The call names no slot but those that are in use. -/
def Proper (S : Finset Nat) : Call → Prop
  | alloc => True
  | free s | write s _ | read s _ | takeBack s _ => s.index ∈ S

end Call

/-- The slots that were handed out and not given up since. The latest call comes
first. -/
def held : List (Call × Reply) → Finset Nat
  | [] => ∅
  | (.alloc, .slot s) :: past => insert s.index (held past)
  | (.free s, .done) :: past => (held past).erase s.index
  | (.takeBack s _, .page _) :: past => (held past).erase s.index
  | _ :: past => held past

/-- These calls have led from the first swap area to the last one, each with its
reply and the latest first. -/
inductive History (w₀ : Swap) : List (Call × Reply) → Swap → Prop
  | nil : History w₀ [] w₀
  | cons {past : List (Call × Reply)} {w : Swap} {c : Call} (h : History w₀ past w)
      (hc : c.Proper (held past)) : History w₀ ((c, (c.run w).1) :: past) (c.run w).2

/-- Nothing is different but what a disk has counted of the requests to read. -/
def Undisturbed (w t : Swap) : Prop :=
  ∃ r, t = { w with disk := w.disk.map (fun d => { d with readTrap := r }) }

instance : IsPreorder Swap Undisturbed where
  refl w := by
    obtain ⟨_ | d, b⟩ := w
    · exact ⟨{}, rfl⟩
    · exact ⟨d.readTrap, rfl⟩
  trans w _ _ := by
    rintro ⟨r, rfl⟩ ⟨r', rfl⟩
    refine ⟨r', ?_⟩
    rw [Option.map_map]
    rfl

namespace Undisturbed

variable {w t : Swap}

theorem bitmap (h : Undisturbed w t) : t.bitmap = w.bitmap := by
  obtain ⟨r, rfl⟩ := h
  rfl

theorem count (h : Undisturbed w t) : t.disk.map Disk.count = w.disk.map Disk.count := by
  obtain ⟨r, rfl⟩ := h
  rw [Option.map_map]
  rfl

theorem sectorAt (h : Undisturbed w t) : t.sectorAt = w.sectorAt := by
  obtain ⟨r, rfl⟩ := h
  obtain ⟨_ | d, b⟩ := w <;> rfl

theorem stored (h : Undisturbed w t) : t.stored = w.stored :=
  funext fun s => stored_congr fun i _ => by rw [h.sectorAt]

end Undisturbed

def UndisturbedPage (p q : Swap × PageBytes) : Prop := Undisturbed p.1 q.1

instance : IsPreorder (Swap × PageBytes) UndisturbedPage where
  refl p := refl_of Undisturbed p.1
  trans _ _ _ h h' := trans_of Undisturbed h h'

structure SameShape (w t : Swap) : Prop where
  bitmap : t.bitmap = w.bitmap
  count : t.disk.map Disk.count = w.disk.map Disk.count

instance : IsPreorder Swap SameShape where
  refl _ := ⟨rfl, rfl⟩
  trans _ _ _ h h' := ⟨h'.bitmap.trans h.bitmap, h'.count.trans h.count⟩

theorem onDisk_undisturbed (n : Nat) : Leads Undisturbed (onDisk (Disk.read n)) := by
  intro w
  unfold Ends onDisk
  cases hd : w.disk with
  | none => exact refl_of Undisturbed w
  | some d =>
      have hread (r : Trap) : Undisturbed w { w with disk := some { d with readTrap := r } } :=
        ⟨r, by rw [hd]; rfl⟩
      simp only [zoom, Disk.read]
      rcases d.readTrap.ask with ⟨_ | _, r⟩
      · by_cases hn : n < d.count
        · simp only [if_pos hn]
          exact hread r
        · simp only [if_neg hn]
          exact hread r
      · exact hread r

theorem readSectors_undisturbed (slot : Slot) (is : List Nat) :
    Leads UndisturbedPage (readSectors slot is) := by
  induction is with
  | nil => exact leads_pure ()
  | cons i is ih =>
      have hread (n : Nat) : Leads UndisturbedPage
          (zoom Prod.fst (fun s p => (s, p.2)) id (onDisk (Disk.read n))) :=
        leads_zoom (onDisk_undisturbed n) fun _ _ h => h
      have hfill (f : PageBytes → PageBytes) :
          Leads UndisturbedPage (modify (fun p => (p.1, f p.2)) : Step (Swap × PageBytes) PUnit) :=
        fun p => refl_of Undisturbed p.1
      exact (leads_ofExcept _).bind fun n => (hread n).bind fun x =>
        (hfill fun b => Bytes.splice b (i * sectorSize) x.toList).bind fun _ => ih

theorem read_undisturbed (slot : Slot) : Leads UndisturbedPage (read slot) :=
  leads_get.bind fun _ => (leads_require _ _).bind fun _ => (leads_demand _ _).bind fun _ =>
    readSectors_undisturbed slot _

theorem writeSector_sameShape (n : Nat) (x : SectorBytes) :
    Leads SameShape (onDisk (Disk.write n x)) := by
  intro w
  unfold Ends onDisk
  cases hd : w.disk with
  | none => exact refl_of SameShape w
  | some d =>
      simp only [zoom, Disk.write]
      rcases d.writeTrap.ask with ⟨_ | _, r⟩
      · by_cases hn : n < d.count
        · simp only [if_pos hn]
          exact ⟨rfl, by rw [hd]; rfl⟩
        · simp only [if_neg hn]
          exact ⟨rfl, by rw [hd]; rfl⟩
      · exact ⟨rfl, by rw [hd]; rfl⟩

theorem writeSectors_sameShape (slot : Slot) (page : PageBytes) (is : List Nat) :
    Leads SameShape (writeSectors slot page is) := by
  induction is with
  | nil => exact leads_pure ()
  | cons i is ih =>
      exact (leads_ofExcept _).bind fun n => (writeSector_sameShape n _).bind fun _ => ih

theorem write_sameShape (slot : Slot) (page : PageBytes) : Leads SameShape (write slot page) :=
  leads_get.bind fun _ => (leads_require _ _).bind fun _ => writeSectors_sameShape slot page _

theorem alloc_firstFree? (w : Swap) :
    Ends alloc w
      (fun s t => w.bitmap.firstFree? = some s.index ∧
        t = { w with bitmap := w.bitmap.mark s.index })
      (fun f t => w.bitmap.firstFree? = none ∧ f = .errno .enomem ∧ t = w) := by
  unfold Ends alloc Bitmap.take?
  cases w.bitmap.firstFree? with
  | none => exact ⟨rfl, rfl, rfl⟩
  | some i => exact ⟨rfl, rfl⟩

theorem takeBack_frees {w : Swap} {slot : Slot} {b : PageBytes} (hu : w.isUsed slot = true)
    (hn : 0 < w.bitmap.used) :
    Ends (takeBack slot) (w, b)
      (fun _ t => ∃ v, Undisturbed w v ∧
        t.1 = { v with bitmap := w.bitmap.unmark slot.index })
      (fun _ t => Undisturbed w t.1) := by
  rw [takeBack, ends_bind]
  refine (read_undisturbed slot (w, b)).mono ?_ fun _ _ h => h
  rintro _ ⟨v, b'⟩ h
  have hv : v.bitmap = w.bitmap := Undisturbed.bitmap h
  simp only [ends_zoom]
  refine (free_ends (by rwa [isUsed, hv]) (by rwa [hv])).mono ?_ fun _ _ h => h.elim
  rintro _ t rfl
  exact ⟨v, h, by rw [hv]⟩

variable {w w₀ : Swap} {past : List (Call × Reply)} {c : Call} {S : Finset Nat}

theorem Call.represents_run (h : w.bitmap.Represents (held past)) (hc : c.Proper (held past)) :
    (c.run w).2.bitmap.Represents (held ((c, (c.run w).1) :: past)) ∧
      (c.run w).2.bitmap.slots = w.bitmap.slots := by
  have hsame {t : Swap} (ht : t.bitmap = w.bitmap) :
      t.bitmap.Represents (held past) ∧ t.bitmap.slots = w.bitmap.slots := by
    rw [ht]
    exact ⟨h, rfl⟩
  refine Ends.run (P := fun r t => t.bitmap.Represents (held ((c, r) :: past)) ∧
    t.bitmap.slots = w.bitmap.slots) ?_
  cases c with
  | alloc =>
      refine (alloc_firstFree? w).mono ?_ ?_
      · rintro s _ ⟨hf, rfl⟩
        obtain ⟨⟨hlt, hn⟩, -⟩ := h.firstFree?_isLeast hf
        exact ⟨h.mark hlt hn, rfl⟩
      · rintro f _ ⟨-, -, rfl⟩
        exact ⟨h, rfl⟩
  | free s =>
      refine (free_ends (h.test_iff.mpr hc) (h.used_pos hc)).mono ?_ fun _ _ h => h.elim
      rintro _ _ rfl
      exact ⟨h.unmark hc, rfl⟩
  | write s b =>
      exact (write_sameShape s b w).mono (fun _ _ ht => hsame ht.bitmap)
        fun _ _ ht => hsame ht.bitmap
  | read s b =>
      exact (read_undisturbed s (w, b)).mono (fun _ _ ht => hsame ht.bitmap)
        fun _ _ ht => hsame ht.bitmap
  | takeBack s b =>
      refine (takeBack_frees (h.test_iff.mpr hc) (h.used_pos hc)).mono ?_
        fun _ _ ht => hsame ht.bitmap
      rintro _ ⟨_, _⟩ ⟨v, -, rfl⟩
      exact ⟨h.unmark hc, rfl⟩

theorem History.cons_of_eq {r : Reply} (h : History w₀ past w) (hc : c.Proper (held past))
    (hr : (c.run w).1 = r) : History w₀ ((c, r) :: past) (c.run w).2 :=
  hr ▸ h.cons hc

theorem History.represents (h : History w₀ past w) (h₀ : w₀.bitmap.Represents ∅) :
    w.bitmap.Represents (held past) ∧ w.bitmap.slots = w₀.bitmap.slots := by
  induction h with
  | nil => exact ⟨h₀, rfl⟩
  | cons _ hc ih =>
      obtain ⟨hr, hs⟩ := Call.represents_run ih.1 hc
      exact ⟨hr, hs.trans ih.2⟩

theorem represents_ofDisk (d : Option Disk) : (ofDisk d).bitmap.Represents ∅ :=
  Bitmap.represents_empty _

/-- A swap area whose bitmap is a set of slots, of which the least one outside is
handed out next. -/
structure FirstFit (w : Swap) (S : Finset Nat) : Prop where
  isUsed_iff : ∀ s, w.isUsed s = true ↔ s.index ∈ S
  inside : ∀ i ∈ S, i < w.slotCount
  usedSlots_eq : w.usedSlots = S.card
  trim : ∀ k j, j < 64 → w.slotCount ≤ k * 64 + j →
    (w.bitmap.words.getD k 0#64).getLsbD j = false
  alloc_least : S.card ≠ w.slotCount → ∃ i t, alloc w = .ok ⟨i⟩ t ∧
    IsLeast {j | j < w.slotCount ∧ j ∉ S} i ∧ ∀ s, t.isUsed s = true ↔ s.index ∈ insert i S
  alloc_full : alloc w = .error (.errno .enomem) w ↔ S.card = w.slotCount
  free_held : ∀ s, s.index ∈ S → ∃ t, free s w = .ok () t ∧
    ∀ s', t.isUsed s' = true ↔ s'.index ∈ S.erase s.index
  free_other : ∀ s, s.index ∉ S → free s w = .error (.panic (.slotFreedTwice s)) w

theorem FirstFit.of_represents (h : w.bitmap.Represents S) : w.FirstFit S where
  isUsed_iff _ := h.test_iff
  inside _ := h.lt
  usedSlots_eq := h.used_eq
  trim := h.trim
  alloc_least hne := by
    obtain ⟨i, hi⟩ := Option.ne_none_iff_exists'.mp (h.firstFree?_eq_none.not.mpr hne)
    have hleast := h.firstFree?_isLeast hi
    refine ⟨i, { w with bitmap := w.bitmap.mark i }, ?_, hleast, fun s => ?_⟩
    · rw [alloc, Bitmap.take?, hi, Option.map_some]
    · exact (h.mark hleast.1.1 hleast.1.2).test_iff
  alloc_full := by
    rw [← show _ ↔ S.card = w.slotCount from h.firstFree?_eq_none, alloc, Bitmap.take?]
    cases w.bitmap.firstFree? with
    | none => exact iff_of_true rfl rfl
    | some i => exact iff_of_false (by rintro ⟨⟩) (by rintro ⟨⟩)
  free_held s hs := by
    obtain ⟨_, t, ht, rfl⟩ := (free_ends (h.test_iff.mpr hs) (h.used_pos hs)).exists_ok
    exact ⟨_, ht, fun s' => (h.unmark hs).test_iff⟩
  free_other s hs := by
    have hu : w.isUsed s = false := h.test_eq_false hs
    have hends : Ends (free s) w (fun _ _ => False)
        (fun f t => f = .panic (.slotFreedTwice s) ∧ t = w) := by
      simp [free, hu]
    cases hx : free s w with
    | ok a t => exact (hends.of_ok hx).elim
    | error f t =>
        obtain ⟨rfl, rfl⟩ := hends.of_error hx
        rfl

/-- After any calls that name slots in use only, the bitmap is the set of those
slots, and the least free one is found as long as there is one. -/
theorem History.firstFit {d : Option Disk} (h : History (.ofDisk d) past w) :
    w.slotCount = (d.map Disk.count).getD 0 / 8 ∧ w.FirstFit (held past) := by
  obtain ⟨hr, hs⟩ := h.represents (represents_ofDisk d)
  exact ⟨hs, .of_represents hr⟩

/-- A slot that was given up is the first to be handed out again. -/
theorem firstFit_two_slots :
    ∃ past w, History (.ofDisk (some (.ofCount 17))) past w ∧
      past.map Prod.fst = [.free ⟨0⟩, .alloc, .alloc] ∧
      past.map Prod.snd = [.done, .slot ⟨1⟩, .slot ⟨0⟩] ∧
      held past = {1} ∧ w.slotCount = 2 ∧ w.FirstFit (held past) ∧
      (Call.alloc.run w).1 = .slot ⟨0⟩ := by
  have hfirst : History (.ofDisk (some (.ofCount 17))) [(.alloc, .slot ⟨0⟩)] _ :=
    History.nil.cons_of_eq trivial (by decide +kernel)
  have hboth := hfirst.cons_of_eq (c := .alloc) (r := .slot ⟨1⟩) trivial (by decide +kernel)
  have h := hboth.cons_of_eq (c := .free ⟨0⟩) (r := .done) (show 0 ∈ held _ by decide)
    (by decide +kernel)
  obtain ⟨hcount, hfit⟩ := History.firstFit h
  exact ⟨_, _, h, rfl, rfl, by decide, hcount, hfit, by decide +kernel⟩

end Pager.Swap
