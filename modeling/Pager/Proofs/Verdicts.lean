import Pager.Proofs.Invariance
import Pager.Proofs.Shortages

namespace Pager

open Step

/-- An address at which a program may have a page. -/
def Config.isUser (c : Config) (a : VirtAddr) : Bool := !a.isNull && !c.isKernel a

def Failure.Shortage : Failure → Prop
  | .errno e => e.Shortage
  | .panic q => q = .outOfFrames

namespace Layout

variable {l l' : Layout} {s : SpaceId} {a : VirtAddr} {page page' : Page} {write : Bool}

def refuses (l : Layout) (s : SpaceId) (a : VirtAddr) (write : Bool) : Bool :=
  write && (l.page ⟨s, a.page⟩).any (fun page => !page.writable)

/-- What an access of a page that was loaded once comes to if nothing is short.
Of an address that no program may use a page is shown that is mapped. -/
def verdict (l : Layout) (s : SpaceId) (a : VirtAddr) (write : Bool) : Option Errno :=
  if l.config.isUser a then if l.refuses s a write then some .eacces else none
  else if l.refuses s a write || (l.entry ⟨s, a.page⟩).isNone then some .efault else none

theorem refuses_eq_true : l.refuses s a write = true ↔
    write = true ∧ ∃ page, l.page ⟨s, a.page⟩ = some page ∧ page.writable = false := by
  rw [refuses, Bool.and_eq_true, Option.any_eq_true]
  simp only [Bool.not_eq_true']

/-- The verdict is the same wherever the page is, and of an address that any
program may use also whether or not it is mapped. -/
theorem verdict_congr (hc : l'.config = l.config) (hpage : l.page ⟨s, a.page⟩ = some page)
    (hpage' : l'.page ⟨s, a.page⟩ = some page') (hw : page'.writable = page.writable)
    (ha : l.config.isUser a = true ∨
      (l'.entry ⟨s, a.page⟩).isSome = (l.entry ⟨s, a.page⟩).isSome) :
    l'.verdict s a write = l.verdict s a write := by
  have hr : l'.refuses s a write = l.refuses s a write := by
    rw [refuses, refuses, hpage, hpage', Option.any_some, Option.any_some, hw]
  rw [verdict, verdict, hc, hr]
  rcases ha with ha | he
  · rw [if_pos ha, if_pos ha]
  · rw [← Option.not_isSome, he, Option.not_isSome]

theorem verdict_readOnly (ha : l.config.isUser a = true) (hpage : l.page ⟨s, a.page⟩ = some page)
    (hw : page.writable = false) : l.verdict s a true = some .eacces := by
  rw [verdict, if_pos ha, if_pos (refuses_eq_true.mpr ⟨rfl, page, hpage, hw⟩)]

theorem verdict_invalid (ha : l.config.isUser a = false) (he : l.entry ⟨s, a.page⟩ = none) :
    l.verdict s a write = some .efault := by
  rw [verdict, if_neg (by simp [ha]), he, Option.isNone_none, Bool.or_true, if_pos rfl]

end Layout

namespace Machine

open Layout

variable {m : Machine} {s : SpaceId} {a sp : VirtAddr} {page : Page} {flags : FaultFlags}
  {write : Bool} {e : Errno}

theorem contains_faultFlags (present write : Bool) :
    (faultFlags present write).contains .notPresent = !present ∧
      (faultFlags present write).contains .write = (present || write) := by
  cases present <;> cases write <;> decide

theorem handleFault_invalid (ha : m.config.isUser a = false) :
    Ends (handleFault s a flags sp) m (fun _ _ => False)
      (fun f t => f = .errno .efault ∧ t.layout = m.layout) := by
  have ha' : (!a.isNull && !m.config.isKernel a) = false := ha
  simp only [handleFault, ends_bind, ends_note, ends_get, ends_requireOr]
  refine ⟨fun h => ?_, fun _ => ⟨trivial, (layout_emit _ rfl).trans (layout_emit m rfl)⟩⟩
  have h' : (!a.isNull && !m.config.isKernel a) = true := h
  rw [ha'] at h'
  cases h'

theorem handleFault_readOnly (ha : m.config.isUser a = true)
    (hpage : m.layout.page ⟨s, a.page⟩ = some page) (hw : page.writable = false)
    (hf : flags.contains .write = true) :
    Ends (handleFault s a flags sp) m (fun _ _ => False)
      (fun f t => f = .errno .eacces ∧ t.layout = m.layout) := by
  have hsame (e e' : Event) (h : e.isLoss = false) (h' : e'.isLoss = false) :
      ((m.emit e).emit e').layout = m.layout := (layout_emit _ h').trans (layout_emit m h)
  have hfind : (m.emit (.fault a flags)).find? s a = some page := hpage
  simp only [handleFault, ends_bind, ends_note, ends_get, ends_requireOr, hfind, hf, hw]
  refine ⟨fun _ => ⟨fun _ => ⟨by simp, fun _ => ⟨trivial, hsame _ _ rfl rfl⟩⟩, fun _ =>
    ⟨trivial, hsame _ _ rfl rfl⟩⟩, fun h => ?_⟩
  have h' : (!a.isNull && !m.config.isKernel a) = false := h
  have ha' : (!a.isNull && !m.config.isKernel a) = true := ha
  rw [ha'] at h'
  cases h'

theorem handleFault_claims (ha : m.config.isUser a = true)
    (hpage : m.layout.page ⟨s, a.page⟩ = some page) (hp : flags.contains .notPresent = true)
    (hw : flags.contains .write = true → page.writable = true) {Q : Unit → Machine → Prop}
    {E : Failure → Machine → Prop} :
    Ends (handleFault s a flags sp) m Q E ↔
      Ends (claimPage ⟨s, a.page⟩ page) (m.emit (.fault a flags)) Q E := by
  have hfind : (m.emit (.fault a flags)).find? s a = some page := hpage
  have ha' : (!a.isNull && !(m.emit (.fault a flags)).config.isKernel a) = true := ha
  have hw' : (!flags.contains .write || page.writable) = true := by
    cases h : flags.contains .write <;> simp_all
  simp only [handleFault, ends_bind, ends_note, ends_get, ends_requireOr, hfind, hp, ha', hw',
    true_imp_iff, reduceCtorEq, false_imp_iff, and_true]

theorem touch_faults (hs : m.layout.Sound)
    (hf : m.layout.entry ⟨s, a.page⟩ = none ∨ m.layout.refuses s a write = true)
    {E : Failure → Machine → Prop}
    (h : ∀ flags : FaultFlags, (write = true → flags.contains .write = true) →
      Ends (handleFault s a flags sp) m (fun _ _ => False) E) (n : Nat) :
    Ends (touch s a write sp (n + 1)) m (fun _ _ => False) E := by
  have hflags (present : Bool) (hw : write = true) :
      (faultFlags present write).contains .write = true := by
    rw [(contains_faultFlags present write).2, hw, Bool.or_true]
  rw [touch]
  simp only [ends_bind, ends_get, translate_eq]
  cases he : m.layout.entry ⟨s, a.page⟩ with
  | none =>
      simp only [Option.map_none, ends_bind]
      exact (h _ (hflags false)).mono (fun _ _ h => h.elim) fun _ _ h => h
  | some e =>
      rw [he] at hf
      obtain ⟨rfl, page, hpage, hro⟩ := refuses_eq_true.mp (hf.resolve_left (by simp))
      obtain ⟨q, f, hq, -, -, hwe⟩ := hs.entries _ e he
      obtain rfl : page = q := Option.some.inj (hpage.symm.trans hq)
      have hflag : m.hasFlag ⟨s, a.page⟩ .writable = false := by
        rw [hasFlag_layout, he, Option.any_some, hwe, hro]
      simp only [Option.map_some, hflag, Bool.not_true, Bool.or_false, Bool.false_eq_true,
        if_false, ends_bind]
      exact (h _ (hflags true)).mono (fun _ _ h => h.elim) fun _ _ h => h

theorem touch_denied (hs : m.layout.Sound) (h : m.layout.verdict s a write = some e) (n : Nat) :
    Ends (touch s a write sp (n + 1)) m (fun _ _ => False)
      (fun f t => f = .errno e ∧ t.layout = m.layout) := by
  unfold Layout.verdict at h
  split at h
  next hu =>
    split at h
    next hr =>
      obtain rfl := Option.some.inj h
      obtain ⟨hw, page, hpage, hro⟩ := refuses_eq_true.mp hr
      exact touch_faults hs (.inr hr)
        (fun flags hf => handleFault_readOnly hu hpage hro (hf hw)) n
    next => cases h
  next hu =>
    split at h
    next hr =>
      obtain rfl := Option.some.inj h
      have hf : m.layout.entry ⟨s, a.page⟩ = none ∨ m.layout.refuses s a write = true := by
        rcases Bool.or_eq_true_iff.mp hr with hr | hn
        · exact .inr hr
        · exact .inl (Option.isNone_iff_eq_none.mp hn)
      exact touch_faults hs hf
        (fun flags _ => handleFault_invalid (Bool.eq_false_of_not_eq_true hu)) n
    next => cases h

theorem touch_allowed (hs : m.layout.Sound) (hu : m.layout.Unpinned)
    (hpage : m.layout.page ⟨s, a.page⟩ = some page) (hl : page.loaded = true)
    (h : m.layout.verdict s a write = none) (n : Nat) :
    Ends (touch s a write sp (n + 2)) m (fun _ _ => True) (fun f _ => f.Shortage) := by
  have hconfig : m.layout.config = m.config := rfl
  have hw : write = true → page.writable = true := by
    rintro rfl
    by_contra hro
    have hr : m.layout.refuses s a true = true :=
      refuses_eq_true.mpr ⟨rfl, page, hpage, Bool.eq_false_of_not_eq_true hro⟩
    simp only [verdict, hr, Bool.true_or, if_true] at h
    split at h <;> cases h
  cases he : m.layout.entry ⟨s, a.page⟩ with
  | some e => exact touch_entry hs hpage hw he (n + 1)
  | none =>
      have ha : m.config.isUser a = true := by
        by_contra hk
        simp [verdict, hconfig, hk, he] at h
      obtain ⟨hpres, hwrite⟩ := contains_faultFlags false write
      have hraises : Ends (handleFault s a (faultFlags false write) sp) m (fun _ _ => True)
          (fun f _ => ∀ k, f = .errno k → k.Shortage) :=
        (handleFault_claims ha hpage hpres (by rwa [hwrite])).mpr (claimPage_raises hl _)
      rw [touch]
      simp only [ends_bind, ends_get, translate_eq, he, Option.map_none]
      refine ((handleFault_ends hs hu).and hraises).mono ?_ ?_
      · intro _ t h
        obtain ⟨⟨-, cs, hf, hwent, q, f, p, hmap, hwr⟩, -⟩ := h
        exact (touch_mapped hmap (fun h => hwr (hwrite.trans (by rw [h]; rfl))) n).mono
          (fun _ _ _ => trivial) fun _ _ h => h
      · rintro (k | q) t ⟨⟨he, -⟩, hk⟩
        · exact hk k rfl
        · exact he.1

theorem readPiece_denied (hs : m.layout.Sound) (h : m.layout.verdict s a false = some e) (n : Nat) :
    Ends (readPiece s a sp n) m (fun _ _ => False)
      (fun f t => f = .errno e ∧ t.layout = m.layout) := by
  simp only [readPiece, ends_bind]
  exact (touch_denied hs h 1).mono (fun _ _ h => h.elim) fun _ _ h => h

theorem writePiece_denied (hs : m.layout.Sound) (h : m.layout.verdict s a true = some e)
    (bs : List UInt8) :
    Ends (writePiece s a sp bs) m (fun _ _ => False)
      (fun f t => f = .errno e ∧ t.layout = m.layout) := by
  simp only [writePiece, ends_bind]
  exact (touch_denied hs h 1).mono (fun _ _ h => h.elim) fun _ _ h => h

/-- A failure that is the verdict on an access, or that something was short. -/
def Judged (l : Layout) (s : SpaceId) (a : VirtAddr) (write : Bool) (o : Option Failure) : Prop :=
  o = (l.verdict s a write).map .errno ∨ ∃ f, o = some f ∧ f.Shortage

theorem touch_judged (hs : m.layout.Sound) (hu : m.layout.Unpinned)
    (hpage : m.layout.page ⟨s, a.page⟩ = some page) (hl : page.loaded = true) :
    Ends (touch s a write sp retries) m
      (fun p t => Ram.InRange t.ram.capacity p ∧ Judged m.layout s a write none)
      (fun f _ => Judged m.layout s a write (some f)) := by
  cases hv : m.layout.verdict s a write with
  | some e =>
      refine (touch_denied hs hv 1).mono (fun _ _ h => h.elim) ?_
      rintro _ t ⟨rfl, -⟩
      exact .inl (by rw [hv]; rfl)
  | none =>
      refine ((touch_ends hs hu write 0).and (touch_allowed hs hu hpage hl hv 0)).mono ?_ ?_
      · intro p t h
        obtain ⟨⟨cs, l, -, hw, q, f, hmap, -, hlt⟩, -⟩ := h
        have hr := inRange_touched hs hw hmap hlt
        exact ⟨hr, .inl (by rw [hv]; rfl)⟩
      · intro f t h
        exact .inr ⟨f, rfl, h.2⟩

theorem readPiece_judged (hs : m.layout.Sound) (hu : m.layout.Unpinned)
    (hpage : m.layout.page ⟨s, a.page⟩ = some page) (hl : page.loaded = true) (n : Nat) :
    Ends (readPiece s a sp n) m (fun _ _ => Judged m.layout s a false none)
      (fun f _ => Judged m.layout s a false (some f)) := by
  simp only [readPiece, ends_bind]
  refine (touch_judged hs hu hpage hl).mono ?_ fun _ _ h => h
  intro p t h
  rw [ends_readFrame h.1, ends_pure]
  exact h.2

theorem writePiece_judged (hs : m.layout.Sound) (hu : m.layout.Unpinned)
    (hpage : m.layout.page ⟨s, a.page⟩ = some page) (hl : page.loaded = true) (bs : List UInt8) :
    Ends (writePiece s a sp bs) m (fun _ _ => Judged m.layout s a true none)
      (fun f _ => Judged m.layout s a true (some f)) := by
  simp only [writePiece, ends_bind]
  refine (touch_judged hs hu hpage hl).mono ?_ fun _ _ h => h
  intro p t h
  rw [ends_readFrame h.1, ends_writeFrame h.1]
  exact h.2

theorem inPage_one (a : VirtAddr) : inPage a 1 = 1 :=
  le_antisymm (inPage_le a 1) (inPage_pos a Nat.one_pos)

theorem ends_writeFrom_one {v : UInt8} {Q : Unit → Machine → Prop}
    {E : Failure → Machine → Prop} :
    Ends (writeFrom s a sp 0 [v]) m Q E ↔ Ends (writePiece s a sp [v]) m Q E := by
  have hrest : writeFrom s a sp 1 [] = pure () := by rw [writeFrom, dif_pos rfl]
  rw [writeFrom, dif_neg (List.cons_ne_nil v []), a.add?_zero]
  simp only [List.length_singleton, inPage_one, List.take_succ_cons, List.take_nil,
    List.drop_succ_cons, List.drop_nil, Nat.zero_add, hrest, ends_bind, ends_pure]

theorem ends_readFrom_one {acc : List UInt8} {Q : Unit → Machine × List UInt8 → Prop}
    {E : Failure → Machine × List UInt8 → Prop} :
    Ends (readFrom s a sp 0 1) (m, acc) Q E ↔ Ends (readPiece s a sp 1) m
      (fun bs t => Q () (t, acc ++ bs)) (fun f t => E f (t, acc)) := by
  have hrest : readFrom s a sp 1 0 = pure () := by rw [readFrom, dif_pos rfl]
  rw [readFrom, dif_neg Nat.one_ne_zero, a.add?_zero]
  simp only [inPage_one, Nat.zero_add, Nat.sub_self, hrest, ends_bind, ends_zoom, ends_modify,
    ends_pure, id_eq]

end Machine

namespace Op

variable {m m' : Machine} {s : SpaceId} {a : VirtAddr} {page page' : Page}

/-- A read of the byte at an address, or a write of one there. -/
def byte (s : SpaceId) (a sp : VirtAddr) : Option UInt8 → Op
  | none => .read s a 1 sp
  | some v => .write s a [v] sp

theorem byte_judged (hs : m.layout.Sound) (hu : m.layout.Unpinned)
    (hpage : m.page? ⟨s, a.page⟩ = some page) (hl : page.loaded = true) (sp : VirtAddr)
    (o : Option UInt8) :
    Machine.Judged m.layout s a o.isSome ((byte s a sp o).run m).1.failure := by
  cases o with
  | none =>
      have h : Ends (Machine.readFrom s a sp 0 1) (m, [])
          (fun _ _ => Machine.Judged m.layout s a false none)
          (fun f _ => Machine.Judged m.layout s a false (some f)) :=
        Machine.ends_readFrom_one.mpr (Machine.readPiece_judged hs hu hpage hl 1)
      change Machine.Judged _ _ _ _ (Machine.performRead s a 1 sp m).1.failure
      unfold Machine.performRead Machine.readUser
      cases hx : Machine.readFrom s a sp 0 1 (m, []) with
      | ok _ t => exact h.of_ok hx
      | error f t => exact h.of_error hx
  | some v =>
      have h : Ends (Machine.writeFrom s a sp 0 [v]) m
          (fun _ _ => Machine.Judged m.layout s a true none)
          (fun f _ => Machine.Judged m.layout s a true (some f)) :=
        Machine.ends_writeFrom_one.mpr (Machine.writePiece_judged hs hu hpage hl [v])
      change Machine.Judged _ _ _ _ (Machine.performWrite s a [v] sp m).1.failure
      unfold Machine.performWrite Machine.perform Machine.writeUser
      cases hx : Machine.writeFrom s a sp 0 [v] m with
      | ok _ t => exact h.of_ok hx
      | error f t => exact h.of_error hx

end Op

/-- Whether an access is allowed does not depend on where the page is, unless a
page that is mapped has an address that no program may use. -/
theorem Reachable.verdict_of_place {m m' : Machine} (h : Reachable m) (h' : Reachable m')
    (hc : m'.config = m.config) {s : SpaceId} {a sp : VirtAddr} {page page' : Page}
    (hpage : m.page? ⟨s, a.page⟩ = some page) (hpage' : m'.page? ⟨s, a.page⟩ = some page')
    (hl : page.loaded = true) (hl' : page'.loaded = true) (hw : page'.writable = page.writable)
    (ha : m.config.isUser a = true ∨
      (m'.mapping? ⟨s, a.page⟩).isSome = (m.mapping? ⟨s, a.page⟩).isSome)
    {o : Option UInt8}
    (hn : ∀ f, ((Op.byte s a sp o).run m).1.failure = some f → ¬f.Shortage)
    (hn' : ∀ f, ((Op.byte s a sp o).run m').1.failure = some f → ¬f.Shortage) :
    ∃ e, (e = none ∨ e = some .efault ∨ e = some .eacces) ∧
      ((Op.byte s a sp o).run m).1.failure = e.map .errno ∧
      ((Op.byte s a sp o).run m').1.failure = e.map .errno := by
  obtain ⟨hs, hu⟩ := h.sound
  obtain ⟨hs', hu'⟩ := h'.sound
  have hverdict : m'.layout.verdict s a o.isSome = m.layout.verdict s a o.isSome :=
    Layout.verdict_congr hc hpage hpage' hw ha
  refine ⟨m.layout.verdict s a o.isSome, ?_, ?_, ?_⟩
  · unfold Layout.verdict
    split_ifs <;> simp
  · rcases Op.byte_judged hs hu hpage hl sp o with hv | ⟨f, hf, hshort⟩
    · exact hv
    · exact absurd hshort (hn f hf)
  · rcases Op.byte_judged hs' hu' hpage' hl' sp o with hv | ⟨f, hf, hshort⟩
    · rw [hv, hverdict]
    · exact absurd hshort (hn' f hf)

theorem verdict_of_place_two_pages_one_frame :
    ∃ m m' page page', m = ((Op.claim 0 ⟨4096⟩).run ((Op.alloc 0 .anon ⟨4096⟩ false none).run
        (.boot {} (.ofCapacity 1) (some (.ofCount 16)) [])).2).2 ∧
      m' = ((Op.claim 0 ⟨8192⟩).run ((Op.alloc 0 .anon ⟨8192⟩ true none).run m).2).2 ∧
      m.page? ⟨0, ⟨1⟩⟩ = some page ∧ m'.page? ⟨0, ⟨1⟩⟩ = some page' ∧
      page.resident = true ∧ page'.resident = false ∧
      ∃ e, (e = none ∨ e = some .efault ∨ e = some .eacces) ∧
        ((Op.byte 0 ⟨5000⟩ ⟨0⟩ none).run m).1.failure = e.map .errno ∧
        ((Op.byte 0 ⟨5000⟩ ⟨0⟩ none).run m').1.failure = e.map .errno := by
  have h₀ : Starts (.boot {} (.ofCapacity 1) (some (.ofCount 16)) []) :=
    ⟨{}, 1, some (.ofCount 16), [], by decide, by rintro d ⟨⟩; decide, rfl⟩
  have hr : Runs (.boot {} (.ofCapacity 1) (some (.ofCount 16)) [])
      [(.alloc 0 .anon ⟨4096⟩ false none, _), (.claim 0 ⟨4096⟩, _)] _ :=
    .cons trivial (.cons trivial (.nil _))
  have hr' : Runs (.boot {} (.ofCapacity 1) (some (.ofCount 16)) [])
      [(.alloc 0 .anon ⟨4096⟩ false none, _), (.claim 0 ⟨4096⟩, _),
        (.alloc 0 .anon ⟨8192⟩ true none, _), (.claim 0 ⟨8192⟩, _)] _ :=
    .cons trivial (.cons trivial (.cons trivial (.cons trivial (.nil _))))
  have h : Reachable ((Op.claim 0 ⟨4096⟩).run ((Op.alloc 0 .anon ⟨4096⟩ false none).run
      (.boot {} (.ofCapacity 1) (some (.ofCount 16)) [])).2).2 := ⟨_, _, h₀, hr⟩
  have h' : Reachable ((Op.claim 0 ⟨8192⟩).run ((Op.alloc 0 .anon ⟨8192⟩ true none).run
      ((Op.claim 0 ⟨4096⟩).run ((Op.alloc 0 .anon ⟨4096⟩ false none).run
        (.boot {} (.ofCapacity 1) (some (.ofCount 16)) [])).2).2).2).2 := ⟨_, _, h₀, hr'⟩
  generalize hm : ((Op.claim 0 ⟨4096⟩).run ((Op.alloc 0 .anon ⟨4096⟩ false none).run
    (.boot {} (.ofCapacity 1) (some (.ofCount 16)) [])).2).2 = m at h h'
  generalize hm' : ((Op.claim 0 ⟨8192⟩).run
    ((Op.alloc 0 .anon ⟨8192⟩ true none).run m).2).2 = m' at h'
  obtain ⟨page, hpage, hp⟩ := (Option.any_eq_true ..).mp (show (m.page? ⟨0, ⟨1⟩⟩).any
      (fun p => p.loaded ∧ p.resident = true ∧ p.writable = false) = true by
    rw [← hm]
    decide +kernel)
  obtain ⟨page', hpage', hp'⟩ := (Option.any_eq_true ..).mp (show (m'.page? ⟨0, ⟨1⟩⟩).any
      (fun p => p.loaded ∧ p.resident = false ∧ p.writable = false) = true by
    rw [← hm', ← hm]
    decide +kernel)
  rw [decide_eq_true_iff] at hp hp'
  have hc : m'.config = m.config := by
    rw [← hm', ← hm]
    decide +kernel
  have hok : ((Op.byte 0 ⟨5000⟩ ⟨0⟩ none).run m).1.failure = none := by
    rw [← hm]
    decide +kernel
  have hok' : ((Op.byte 0 ⟨5000⟩ ⟨0⟩ none).run m').1.failure = none := by
    rw [← hm', ← hm]
    decide +kernel
  exact ⟨m, m', page, page', rfl, hm'.symm, hpage, hpage', hp.2.1, hp'.2.1,
    h.verdict_of_place h' hc (a := ⟨5000⟩) hpage hpage' hp.1 hp'.1 (hp'.2.2.trans hp.2.2.symm)
      (.inl (by rw [← hm]; decide +kernel)) (by rw [hok]; rintro _ ⟨⟩) (by rw [hok']; rintro _ ⟨⟩)⟩

end Pager
