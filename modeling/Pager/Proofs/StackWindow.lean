import Pager.Proofs.Evolving
import Pager.Proofs.Growing
import Mathlib.Data.Set.Card
import Mathlib.Order.Interval.Finset.Nat

namespace Pager

open Step

theorem Config.growsStack_iff {c : Config} {a sp : VirtAddr} :
    c.growsStack a sp = true ↔
      (c.stackTop.toNat - c.stackLimit ≤ a.toNat ∧ a.toNat < c.stackTop.toNat) ∧
        sp.toNat ≤ min (a.toNat + 32) (2 ^ 64 - 1) := by
  simp only [growsStack, inStack, Bool.and_eq_true, decide_eq_true_eq]
  rfl

namespace Machine

variable {m t : Machine} {s : SpaceId} {a sp : VirtAddr} {flags : FaultFlags} {id : PageId}

/-- An access that faults at a place where the stack may grow to: in user memory,
within the window of the stack and not far below the stack pointer. -/
structure Deepens (m : Machine) (s : SpaceId) (a : VirtAddr) (flags : FaultFlags)
    (sp : VirtAddr) : Prop where
  null : a.toNat ≠ 0
  user : a.toNat < m.config.kernelBase.toNat
  absent : flags.contains .notPresent = true
  fresh : m.page? ⟨s, a.page⟩ = none
  bottom : m.config.stackTop.toNat - m.config.stackLimit ≤ a.toNat
  top : a.toNat < m.config.stackTop.toNat
  near : sp.toNat ≤ min (a.toNat + 32) (2 ^ 64 - 1)

/-- One page has come, private memory that may be written to. All others are what
they were. -/
structure Deepened (m : Machine) (id : PageId) (t : Machine) : Prop where
  page : ∃ q, t.page? id = some q ∧ q.kind = .anon ∧ q.writable = true
  others : ∀ o, o ≠ id → Option.Rel Page.Continues (m.page? o) (t.page? o)

theorem grows_iff_deepens : m.Grows s a flags sp ↔ m.Deepens s a flags sp := by
  have hnull : a.isNull = false ↔ a.toNat ≠ 0 := by simp [VirtAddr.isNull]
  have huser : m.config.isKernel a = false ↔ a.toNat < m.config.kernelBase.toNat := by
    simp [Config.isKernel]
  constructor
  · rintro ⟨⟨h, h'⟩, habs, hfresh, h''⟩
    obtain ⟨⟨hb, ht⟩, hn⟩ := Config.growsStack_iff.mp h''
    exact ⟨hnull.mp h, huser.mp h', habs, hfresh, hb, ht, hn⟩
  · rintro ⟨h, h', habs, hfresh, hb, ht, hn⟩
    exact ⟨⟨hnull.mpr h, huser.mpr h'⟩, habs, hfresh, Config.growsStack_iff.mpr ⟨⟨hb, ht⟩, hn⟩⟩

theorem handleFault_near : Ends (handleFault s a flags sp) m
    (fun _ _ => m.page? ⟨s, a.page⟩ = none → m.Grows s a flags sp) (fun _ _ => True) := by
  simp only [handleFault, ends_bind, ends_note, ends_get, ends_requireOr, implies_true, and_true]
  intro huser habs
  have huser' : a.isNull = false ∧ m.config.isKernel a = false := by
    simpa [emit] using huser
  have hfind : (m.emit (.fault a flags)).find? s a = m.page? ⟨s, a.page⟩ := rfl
  rw [hfind]
  cases hpage : m.page? ⟨s, a.page⟩ with
  | none =>
      simp only [ends_bind, ends_requireOr, implies_true, and_true]
      refine fun hnear => (ends_self _ _).mono (fun _ _ _ _ => ?_) fun _ _ _ => trivial
      exact ⟨huser', habs, hpage, hnear⟩
  | some page =>
      simp only [ends_bind, ends_requireOr, implies_true, and_true]
      exact fun _ => (ends_self _ _).mono (fun _ _ _ h => by cases h) fun _ _ _ => trivial

structure Faults (m : Machine) (s : SpaceId) (a : VirtAddr) (flags : FaultFlags) (sp : VirtAddr)
    (t : Machine) : Prop where
  lasting : ∃ cs, m.layout.Course cs t.layout ∧ (∀ c ∈ cs, c.Lasting) ∧
    ∀ o p, .register o p ∈ cs → o = ⟨s, a.page⟩ ∧ p = .stack
  grown : m.Grows s a flags sp → t.page? ⟨s, a.page⟩ ≠ none
  kept : ¬m.Grows s a flags sp → m.page? ⟨s, a.page⟩ = none → t.page? ⟨s, a.page⟩ = none

theorem handleFault_faults (hs : m.layout.Sound) (hu : m.layout.Unpinned) :
    Ends (handleFault s a flags sp) m (fun _ t => m.Faults s a flags sp t)
      (fun _ t => m.Faults s a flags sp t) := by
  refine (((handleFault_ends hs hu).and handleFault_near).and (handleFault_grows hs hu)).mono ?_ ?_
  · rintro _ t ⟨⟨⟨-, cs, hf, hw, q, f, p, hmap, -⟩, hnear⟩, -⟩
    refine ⟨?_, fun _ => ?_, fun hg hn => absurd (hnear hn) hg⟩
    · rcases hf with ho | ⟨rfl, -⟩
      · exact ⟨cs, hw.course, ho.lasting.1, fun o p h => (ho.lasting.2 o p h).imp_right And.left⟩
      · exact ⟨_, hw.course, by simp [Change.Lasting], by simp⟩
    · have hq : t.page? ⟨s, a.page⟩ = some q := hmap.1.1
      rw [hq]
      exact Option.some_ne_none q
  · rintro e t ⟨⟨⟨-, cs, hb, hw⟩, -⟩, hgrown, hsame⟩
    refine ⟨?_, fun hg => ?_, fun hg hn => ?_⟩
    · exact ⟨cs, hw.course, hb.lasting.1, fun o p h => (hb.lasting.2 o p h).imp_right And.left⟩
    · rw [(hgrown hg).page]
      exact Option.some_ne_none _
    · rw [← Option.isNone_iff_eq_none, ← Option.isSome_eq_false_iff, hsame hg, hn]
      rfl

theorem Faults.rel (h : m.Faults s a flags sp t) (hs : m.layout.Sound)
    (hid : id = ⟨s, a.page⟩ → m.page? id = none → t.page? id = none) :
    Option.Rel Page.Continues (m.page? id) (t.page? id) := by
  obtain ⟨cs, hc, hlast, hreg⟩ := h.lasting
  cases hpage : m.page? id with
  | some page =>
      obtain ⟨q, hq, hcont⟩ := Layout.continues_of_course hs hc hlast (o := id) hpage
      have hq' : t.page? id = some q := hq
      rw [hq']
      exact .some hcont
  | none =>
      cases hq : t.page? id with
      | none => exact .none
      | some q =>
          obtain ⟨p, hmem, -⟩ := Layout.registered_of_course hs hc (o := id) hpage hq
          rw [hid (hreg id p hmem).1 hpage] at hq
          cases hq

theorem Faults.deepened (h : m.Faults s a flags sp t) (hs : m.layout.Sound)
    (hg : m.Grows s a flags sp) : m.Deepened ⟨s, a.page⟩ t := by
  refine ⟨?_, fun o ho => h.rel hs fun heq => absurd heq ho⟩
  obtain ⟨cs, hc, -, hreg⟩ := h.lasting
  obtain ⟨q, hq⟩ := Option.ne_none_iff_exists'.mp (h.grown hg)
  obtain ⟨p, hmem, hcont⟩ := Layout.registered_of_course hs hc (o := ⟨s, a.page⟩) hg.fresh hq
  obtain rfl := (hreg _ p hmem).2
  exact ⟨q, hq, hcont.kind, hcont.writable⟩

theorem fault_run (hs : m.layout.Sound) (hu : m.layout.Unpinned) (s : SpaceId) (a : VirtAddr)
    (flags : FaultFlags) (sp : VirtAddr) :
    (m.Deepens s a flags sp →
      m.Deepened ⟨s, a.page⟩ ((Op.fault s a flags sp).run m).2) ∧
    (¬m.Deepens s a flags sp → ∀ id,
      Option.Rel Page.Continues (m.page? id) (((Op.fault s a flags sp).run m).2.page? id)) := by
  have h : m.Faults s a flags sp ((Op.fault s a flags sp).run m).2 :=
    perform_ends (Q := fun _ t => m.Faults s a flags sp t) (handleFault_faults hs hu)
  rw [← grows_iff_deepens]
  refine ⟨h.deepened hs, fun hg id => h.rel hs ?_⟩
  rintro rfl
  exact h.kept hg

end Machine

/-- The pages that lie in the window of the stack as a whole. -/
def Config.stackWindow (c : Config) : Set VirtPage :=
  {v | c.stackTop.toNat - c.stackLimit ≤ v.toNat * pageSize ∧
    (v.toNat + 1) * pageSize ≤ c.stackTop.toNat}

theorem Config.page_mem_stackWindow {c : Config} {a sp : VirtAddr} (htop : c.stackTop.offset = 0)
    (hlimit : c.stackLimit % pageSize = 0) (h : c.growsStack a sp = true) :
    a.page ∈ c.stackWindow := by
  obtain ⟨⟨hb, ht⟩, -⟩ := growsStack_iff.mp h
  have hpage : a.page.toNat = a.toNat / pageSize := rfl
  change _ ≤ _ ∧ _ ≤ _
  rw [hpage]
  unfold VirtAddr.offset pageSize at *
  omega

theorem Config.encard_stackWindow (c : Config) (s : SpaceId) :
    {id : PageId | id.space = s ∧ id.page ∈ c.stackWindow}.encard ≤
      ((c.stackLimit / pageSize : Nat) : ENat) := by
  have hinj : Set.InjOn (fun id : PageId => id.page.toNat)
      {id | id.space = s ∧ id.page ∈ c.stackWindow} := by
    rintro ⟨_, ⟨v⟩⟩ ⟨rfl, -⟩ ⟨_, ⟨w⟩⟩ ⟨rfl, -⟩ h
    rw [show v = w from UInt64.toNat_inj.mp h]
  have hsub : (fun id : PageId => id.page.toNat) '' {id | id.space = s ∧ id.page ∈ c.stackWindow} ⊆
      Finset.Ico (c.stackTop.toNat / pageSize - c.stackLimit / pageSize)
        (c.stackTop.toNat / pageSize) := by
    rintro _ ⟨id, ⟨-, hb, ht⟩, rfl⟩
    rw [Finset.mem_coe, Finset.mem_Ico]
    unfold pageSize at *
    dsimp only
    omega
  rw [← Set.InjOn.encard_image hinj]
  refine (Set.encard_le_encard hsub).trans ?_
  rw [Set.encard_coe_eq_coe_finsetCard, Nat.card_Ico]
  exact Nat.cast_le.mpr tsub_tsub_le

namespace Op

def Faulting : Op → Prop
  | fault _ _ _ _ | read _ _ _ _ | write _ _ _ _ => True
  | _ => False

theorem growsStack_of_faulting {op : Op} {m : Machine} {id : PageId} (hf : op.Faulting)
    (h : op.MayRegister m id) :
    ∃ a sp : VirtAddr, id.page = a.page ∧ m.config.growsStack a sp = true := by
  cases op with
  | fault s a flags sp => exact ⟨a, sp, congrArg PageId.page h.1, h.2⟩
  | read s a len sp | write s a data sp =>
      obtain ⟨b, rfl, hb⟩ := h
      exact ⟨b, sp, rfl, hb⟩
  | _ => exact hf.elim

end Op

namespace Machine

variable {m t : Machine} {trail : List (Op × Report)}

/-- The pages that faults made in the course of operations, those that went later
included. -/
def faultedIn (m : Machine) : List (Op × Report) → Set PageId
  | [] => ∅
  | (op, _) :: trail =>
      {id | op.Faulting ∧ m.page? id = none ∧ (op.run m).2.page? id ≠ none} ∪
        faultedIn (op.run m).2 trail

theorem faultedIn_subset (h : Runs m trail t) (hs : m.layout.Sound) (hu : m.layout.Unpinned)
    (htop : m.config.stackTop.offset = 0) (hlimit : m.config.stackLimit % pageSize = 0) :
    ∀ id ∈ m.faultedIn trail, id.page ∈ m.config.stackWindow := by
  induction h with
  | nil => rintro id ⟨⟩
  | @cons m t op trail ha _ ih =>
      obtain ⟨cs, hw, -⟩ := Op.goes_run hs hu ha
      have hconfig : (op.run m).2.config = m.config := Op.config_run hs hu ha
      rw [hconfig] at ih
      rintro id (⟨hf, hnone, hsome⟩ | hid)
      · have hreg := (Op.evolves_run hs hu ha).new id hnone hsome
        obtain ⟨a, sp, hpage, hg⟩ := Op.growsStack_of_faulting hf hreg
        rw [hpage]
        exact Config.page_mem_stackWindow htop hlimit hg
      · exact ih (hs.of_course hw.course) hw.unpinned htop hlimit id hid

end Machine

/-- The stack grows by the page of a fault, exactly where it may, and nothing else
comes or goes. What faults make in a run lies in the window of the stack, which has
room for so many pages of a space. -/
theorem Runs.stack_window {m₀ m : Machine} {trail : List (Op × Report)} (h₀ : Starts m₀)
    (h : Runs m₀ trail m) (htop : m₀.config.stackTop.offset = 0)
    (hlimit : m₀.config.stackLimit % pageSize = 0) :
    (∀ s a flags sp,
      (m.Deepens s a flags sp → m.Deepened ⟨s, a.page⟩ ((Op.fault s a flags sp).run m).2) ∧
      (¬m.Deepens s a flags sp → ∀ id,
        Option.Rel Page.Continues (m.page? id) (((Op.fault s a flags sp).run m).2.page? id))) ∧
    (∀ id ∈ m₀.faultedIn trail, id.page ∈ m₀.config.stackWindow) ∧
    ∀ s, {id ∈ m₀.faultedIn trail | id.space = s}.encard ≤
      ((m₀.config.stackLimit / pageSize : Nat) : ENat) := by
  obtain ⟨hs₀, hu₀⟩ := h₀.sound
  obtain ⟨hs, hu⟩ := Runs.sound h hs₀ hu₀
  have hsub := Machine.faultedIn_subset h hs₀ hu₀ htop hlimit
  refine ⟨Machine.fault_run hs hu, hsub, fun s => ?_⟩
  refine (Set.encard_le_encard ?_).trans (m₀.config.encard_stackWindow s)
  rintro id ⟨hid, hspace⟩
  exact ⟨hspace, hsub id hid⟩

theorem stack_window_one_fault :
    ∃ trail m, Runs (.boot {} (.ofCapacity 1) none []) trail m ∧
      trail.map Prod.fst = [.fault 0 ⟨0x4747fff8⟩ .notPresent ⟨0x47480000⟩] ∧
      ⟨0, ⟨0x4747f⟩⟩ ∈ (Machine.boot {} (.ofCapacity 1) none []).faultedIn trail ∧
      (∀ s a flags sp,
        (m.Deepens s a flags sp → m.Deepened ⟨s, a.page⟩ ((Op.fault s a flags sp).run m).2) ∧
        (¬m.Deepens s a flags sp → ∀ id,
          Option.Rel Page.Continues (m.page? id) (((Op.fault s a flags sp).run m).2.page? id))) ∧
      (∀ id ∈ (Machine.boot {} (.ofCapacity 1) none []).faultedIn trail,
        id.page ∈ Config.stackWindow {}) ∧
      ∀ s, {id ∈ (Machine.boot {} (.ofCapacity 1) none []).faultedIn trail | id.space = s}.encard ≤
        ((0x100000 / pageSize : Nat) : ENat) := by
  have h₀ : Starts (.boot {} (.ofCapacity 1) none []) :=
    ⟨{}, 1, none, [], by decide, by rintro d ⟨⟩, rfl⟩
  have h : Runs (.boot {} (.ofCapacity 1) none [])
      [(.fault 0 ⟨0x4747fff8⟩ .notPresent ⟨0x47480000⟩, _)] _ := .cons trivial (.nil _)
  have hnew : ((Op.fault 0 ⟨0x4747fff8⟩ .notPresent ⟨0x47480000⟩).run
      (.boot {} (.ofCapacity 1) none [])).2.page? ⟨0, ⟨0x4747f⟩⟩ ≠ none :=
    Option.isSome_iff_ne_none.mp (by decide +kernel)
  refine ⟨_, _, h, rfl, .inl ⟨trivial, Machine.page_boot .., hnew⟩, ?_⟩
  exact Runs.stack_window h₀ h rfl rfl

end Pager
