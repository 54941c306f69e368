import Pager.Proofs.Passing

namespace Pager

open Step

def VirtPage.Below (v : VirtPage) (b : Nat) : Prop := (v.toNat + 1) * pageSize ≤ b

theorem VirtAddr.page_below {a : VirtAddr} {b : Nat} (hb : b % pageSize = 0) (ha : a.toNat < b) :
    a.page.Below b := by
  rw [VirtPage.Below, a.toNat_page]
  unfold pageSize at *
  omega

theorem VirtPage.Below.toNat_lt {a : VirtAddr} {b : Nat} (h : a.page.Below b) : a.toNat < b := by
  rw [VirtPage.Below, a.toNat_page] at h
  unfold pageSize at h
  omega

theorem VirtAddr.toNat_of_sub? {a b : VirtAddr} {n : Nat} (h : a.sub? n = some b) :
    b.toNat + n = a.toNat := by
  obtain ⟨w, hw, rfl⟩ := Option.map_eq_some_iff.mp h
  unfold wordSub? at hw
  split at hw
  next hle =>
    obtain rfl := Option.some.inj hw
    have hlt : a.val.toNat - n < wordBound := lt_of_le_of_lt (Nat.sub_le ..) a.toNat_lt
    have hb : (UInt64.ofNat (a.val.toNat - n)).toNat = a.val.toNat - n :=
      UInt64.toNat_ofNat_of_lt' hlt
    exact (congrArg (· + n) hb).trans (Nat.sub_add_cancel hle)
  next => cases hw

/-- The addresses of the kernel begin with a page, and the stack lies before them. -/
structure Config.Fenced (c : Config) : Prop where
  aligned : c.kernelBase.aligned = true
  stack : c.stackTop.toNat ≤ c.kernelBase.toNat

namespace Config

variable {c : Config} {a sp : VirtAddr}

theorem Fenced.mod_eq (h : c.Fenced) : c.kernelBase.toNat % pageSize = 0 := by
  simpa [VirtAddr.aligned, VirtAddr.offset] using h.aligned

theorem Fenced.page_below (h : c.Fenced) (ha : a.toNat < c.kernelBase.toNat) :
    a.page.Below c.kernelBase.toNat :=
  VirtAddr.page_below h.mod_eq ha

theorem Fenced.below_of_growsStack (h : c.Fenced) (hg : c.growsStack a sp = true) :
    a.page.Below c.kernelBase.toNat := by
  have ha : a.toNat < c.stackTop.toNat := by
    simp only [growsStack, inStack, Bool.and_eq_true, decide_eq_true_eq] at hg
    exact hg.1.2
  exact h.page_below (lt_of_lt_of_le ha h.stack)

theorem Fenced.below_of_mapped (h : c.Fenced) {len i : Nat} (ha : a.aligned = true)
    (hr : c.isUserRange a len = true) (hi : i < Machine.pagesFor len) :
    (a.page.plus i).Below c.kernelBase.toNat := by
  have hbase := h.mod_eq
  have hoff : a.toNat % pageSize = 0 := by simpa [VirtAddr.aligned, VirtAddr.offset] using ha
  have hend : a.toNat + len ≤ c.kernelBase.toNat := by
    simp only [isUserRange, Bool.and_eq_true, decide_eq_true_eq] at hr
    exact hr.2
  have hlt := c.kernelBase.toNat_lt
  have hpage := a.toNat_page
  unfold Machine.pagesFor at hi
  rw [VirtPage.Below, Machine.toNat_plus (by unfold pageSize wordBound at *; omega), hpage]
  unfold pageSize at *
  omega

end Config

namespace Layout

variable {l l' : Layout} {id : PageId} {b : Nat} {s : SpaceId} {a sp : VirtAddr}

def Below (l : Layout) (b : Nat) : Prop := ∀ id, l.page id ≠ none → id.page.Below b

theorem Below.of_evolves {R : PageId → Prop} (h : l.Below b) (he : l.Evolves R l')
    (hR : ∀ id, R id → id.page.Below b) : l'.Below b := by
  intro id hid
  by_cases hn : l.page id = none
  · exact hR id (he.new id hn hid)
  · exact h id hn

theorem Below.of_entry (h : l.Below b) (hs : l.Sound) (he : l.entry id ≠ none) :
    id.page.Below b := by
  obtain ⟨e, he⟩ := Option.ne_none_iff_exists'.mp he
  obtain ⟨page, f, hpage, -⟩ := hs.entries id e he
  exact h id (hpage ▸ Option.some_ne_none page)

theorem Below.of_reaches (h : l.Below l.config.kernelBase.toNat) (hs : l.Sound)
    (hc : l.config.Fenced) (hr : l.Reaches s sp l') : l'.Below l.config.kernelBase.toNat := by
  obtain ⟨cs, hw, hg⟩ := hr
  have he : l.Evolves (fun id => ∃ v : VirtAddr, id = ⟨s, v.page⟩ ∧
      l.config.growsStack v sp = true) l' :=
    .of_lasting hs hw.course hg.lasting fun o p hmem =>
      (hg.grown o p hmem).imp fun v h => ⟨h.1, h.2.2⟩
  refine h.of_evolves he ?_
  rintro _ ⟨v, rfl, hv⟩
  exact hc.below_of_growsStack hv

end Layout

namespace Op

variable {m t : Machine} {op : Op} {id : PageId} {trail : List (Op × Report)}

/-- Single pages are asked for below the kernel only. -/
def AllocsBelow (c : Config) : Op → Prop
  | alloc _ _ a _ _ => c.isKernel a = false
  | _ => True

theorem below_of_mayRegister (h : m.layout.Below m.config.kernelBase.toNat)
    (hc : m.config.Fenced) (ho : op.AllocsBelow m.config) (hid : op.MayRegister m id) :
    id.page.Below m.config.kernelBase.toNat := by
  cases op with
  | fork src | copyFrom src => exact h ⟨src, id.page⟩ hid.2
  | alloc s type a =>
      obtain rfl : id = ⟨s, a.page⟩ := hid
      have ha : ¬m.config.kernelBase.toNat ≤ a.toNat := by
        simpa [AllocsBelow, Config.isKernel] using ho
      exact hc.page_below (Nat.lt_of_not_le ha)
  | fault s a flags sp =>
      obtain ⟨rfl, hg⟩ := hid
      exact hc.below_of_growsStack hg
  | read s | write s =>
      obtain ⟨v, rfl, hg⟩ := hid
      exact hc.below_of_growsStack hg
  | setUpStack s =>
      obtain ⟨a, ha, rfl⟩ := hid
      have htop := VirtAddr.toNat_of_sub? ha
      have hstack := hc.stack
      exact hc.page_below (by unfold pageSize at htop; omega)
  | mmap s | mmapDescriptor s =>
      obtain ⟨ha, hr, i, hi, rfl⟩ := hid
      exact hc.below_of_mapped ha hr hi
  | create | drop | kill | claim | munmap | remove | refuse | armDisk | armFile => exact hid.elim

theorem below_run (hs : m.layout.Sound) (hu : m.layout.Unpinned)
    (h : m.layout.Below m.config.kernelBase.toNat) (hc : m.config.Fenced)
    (ho : op.AllocsBelow m.config) (ha : op.Admissible m) :
    (op.run m).2.layout.Below m.config.kernelBase.toNat :=
  h.of_evolves (evolves_run hs hu ha) fun _ hid => below_of_mayRegister h hc ho hid

end Op

/-- How an access of `len` bytes ends where no address from `b` on may be used. -/
structure Report.StaysBelow (r : Report) (b : Nat) (a : VirtAddr) (len : Nat) : Prop where
  passed : r.passed ≠ 0 → a.toNat + r.passed ≤ b
  whole : r.failure = none → r.passed = len
  fails : len ≠ 0 → b < a.toNat + len → r.failure ≠ none
  efault : r.passed < len → b ≤ a.toNat + r.passed → r.failure = some (.errno .efault)
  noOverflow : r.failure ≠ some (.panic .addOverflow)

theorem Layout.Passes.staysBelow {l : Layout} {s : SpaceId} {a sp : VirtAddr} {write : Bool}
    {len : Nat} {r : Report} (h : l.Passes s a sp write 0 len r.passed r.failure) (hs : l.Sound)
    (hb : l.Below l.config.kernelBase.toNat) (hc : l.config.Fenced) :
    r.StaysBelow l.config.kernelBase.toNat a len := by
  have hbase := l.config.kernelBase.toNat_lt
  have hpassed (hn : r.passed ≠ 0) : a.toNat + r.passed ≤ l.config.kernelBase.toNat := by
    obtain ⟨b, l', hab, hr, page, hpage, -⟩ := h.passed (r.passed - 1) (by omega)
    have hlt := (hb.of_reaches hs hc hr ⟨s, b.page⟩ (hpage ▸ Option.some_ne_none page)).toNat_lt
    have := VirtAddr.toNat_of_add? hab
    omega
  have hwhole (hn : r.failure = none) : r.passed = len := by
    have hh := h.halts
    rw [hn] at hh
    cases hh with
    | whole hn => exact hn
  -- an address that overflows would follow one of the kernel that was passed
  have hsum {n : Nat} (hn : n = r.passed) : a.add? (0 + n) ≠ none := by
    intro hnone
    have hge := VirtAddr.add?_eq_none.mp hnone
    have ha := a.toNat_lt
    by_cases h0 : r.passed = 0
    · omega
    · have := hpassed h0
      omega
  refine ⟨hpassed, hwhole, fun h0 hlt hn => ?_, fun hlt hge => ?_, fun hf => ?_⟩
  · have hlen := hwhole hn
    have := hpassed (by omega)
    omega
  · have hh := h.halts
    generalize hf : r.failure = o at hh ⊢
    cases hh with
    | whole hn => omega
    | overflow _ ha => exact absurd ha (hsum rfl)
    | @stopped cur l' f _ ha hr _ hv =>
        have hcur := VirtAddr.toNat_of_add? ha
        obtain ⟨cs, hw, -⟩ := id hr
        have hconfig := Layout.config_of_course hw.course
        have huser : l'.config.isUser cur = false := by
          have hk : l.config.isKernel cur = true := by
            simp only [Config.isKernel, decide_eq_true_eq]
            omega
          rw [hconfig, Config.isUser, hk, Bool.not_true, Bool.and_false]
        have hentry : l'.entry ⟨s, cur.page⟩ = none := by
          by_contra hne
          have hlt := ((hb.of_reaches hs hc hr).of_entry (hs.of_course hw.course) hne).toNat_lt
          omega
        rw [hv _ (Layout.verdict_invalid huser hentry)]
  · have hh := h.halts
    rw [hf] at hh
    cases hh with
    | overflow _ ha => exact hsum rfl ha
    | stopped _ _ _ he => cases he.1

theorem Runs.pages_below {m t : Machine} {trail : List (Op × Report)} (h : Runs m trail t)
    (hs : m.layout.Sound) (hu : m.layout.Unpinned) (hc : m.config.Fenced)
    (ha : ∀ x ∈ trail, x.1.AllocsBelow m.config)
    (hb : m.layout.Below m.config.kernelBase.toNat) :
    t.config = m.config ∧ t.layout.Below m.config.kernelBase.toNat := by
  induction h with
  | nil => exact ⟨rfl, hb⟩
  | @cons m t op trail had h ih =>
      obtain ⟨cs, hw, -⟩ := Op.goes_run hs hu had
      have hconfig := Op.config_run hs hu had
      have hb' := Op.below_run hs hu hb hc (ha _ (List.mem_cons_self ..)) had
      rw [hconfig] at ih
      exact ih (hs.of_course hw.course) hw.unpinned hc
        (fun x hx => ha x (List.mem_cons_of_mem _ hx)) hb'

/-- No page of the kernel is ever mapped, and no access gets past the addresses
of the user. -/
theorem Runs.kernel_unreached {m₀ m : Machine} {trail : List (Op × Report)} (h₀ : Starts m₀)
    (h : Runs m₀ trail m) (hc : m₀.config.Fenced)
    (ha : ∀ x ∈ trail, x.1.AllocsBelow m₀.config) :
    (∀ id, m.mapping? id ≠ none → id.page.Below m₀.config.kernelBase.toNat) ∧
      ∀ s a sp,
        (∀ len, ((Op.read s a len sp).run m).1.StaysBelow m₀.config.kernelBase.toNat a len) ∧
        ∀ data, ((Op.write s a data sp).run m).1.StaysBelow m₀.config.kernelBase.toNat a
          data.length := by
  obtain ⟨hs₀, hu₀⟩ := h₀.sound
  obtain ⟨hs, hu⟩ := h.sound hs₀ hu₀
  have hb₀ : m₀.layout.Below m₀.config.kernelBase.toNat := by
    obtain ⟨config, n, disk, files, -, -, rfl⟩ := h₀
    exact fun id hid => absurd (Machine.page_boot _ _ _ _ id) hid
  obtain ⟨hconfig, hb⟩ := h.pages_below hs₀ hu₀ hc ha hb₀
  rw [← hconfig] at hb hc ⊢
  refine ⟨fun id hid => hb.of_entry hs hid, fun s a sp => ⟨fun len => ?_, fun data => ?_⟩⟩
  · exact (Op.read_passes hs hu len).staysBelow hs hb hc
  · exact (Op.write_passes hs hu data).staysBelow hs hb hc

theorem kernel_unreached_last_page :
    ∃ m₀ m trail, m₀ = .boot { kernelBase := ⟨8192⟩, stackTop := ⟨8192⟩ } (.ofCapacity 1)
        (some (.ofCount 8)) [] ∧
      trail.map Prod.fst = [.alloc 0 .anon ⟨5000⟩ true none, .claim 0 ⟨5000⟩] ∧
      Starts m₀ ∧ Runs m₀ trail m ∧ m₀.config.Fenced ∧
      (∀ x ∈ trail, x.1.AllocsBelow m₀.config) ∧
      (∀ id, m.mapping? id ≠ none → id.page.Below m₀.config.kernelBase.toNat) ∧
      ∀ s a sp,
        (∀ len, ((Op.read s a len sp).run m).1.StaysBelow m₀.config.kernelBase.toNat a len) ∧
        ∀ data, ((Op.write s a data sp).run m).1.StaysBelow m₀.config.kernelBase.toNat a
          data.length := by
  have h₀ : Starts (.boot { kernelBase := ⟨8192⟩, stackTop := ⟨8192⟩ } (.ofCapacity 1)
      (some (.ofCount 8)) []) :=
    ⟨_, 1, some (.ofCount 8), [], by decide, by rintro d ⟨⟩; decide, rfl⟩
  obtain ⟨trail, m, htrail, h⟩ : ∃ trail m,
      trail.map Prod.fst = [.alloc 0 .anon ⟨5000⟩ true none, .claim 0 ⟨5000⟩] ∧
      Runs (.boot { kernelBase := ⟨8192⟩, stackTop := ⟨8192⟩ } (.ofCapacity 1)
        (some (.ofCount 8)) []) trail m :=
    ⟨[(.alloc 0 .anon ⟨5000⟩ true none, _), (.claim 0 ⟨5000⟩, _)], _, rfl,
      .cons trivial (.cons trivial (.nil _))⟩
  have hc : Config.Fenced { kernelBase := ⟨8192⟩, stackTop := ⟨8192⟩ } := ⟨by decide, by decide⟩
  have ha (x : Op × Report) (hx : x ∈ trail) :
      x.1.AllocsBelow { kernelBase := ⟨8192⟩, stackTop := ⟨8192⟩ } := by
    have hmem := List.mem_map_of_mem hx (f := Prod.fst)
    rw [htrail, List.mem_pair] at hmem
    rcases hmem with hop | hop
    · rw [hop]
      change Config.isKernel { kernelBase := ⟨8192⟩, stackTop := ⟨8192⟩ } ⟨5000⟩ = false
      decide
    · rw [hop]
      trivial
  exact ⟨_, m, trail, rfl, htrail, h₀, h, hc, ha, Runs.kernel_unreached h₀ h hc ha⟩

end Pager
