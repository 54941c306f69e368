import Pager.Proofs.FileRuns
import Pager.Proofs.Pending

namespace Pager

open Step

namespace Change

/-- A page of private memory is made, or a page is loaded or mapped. -/
def Looks : Change → Prop
  | register _ page => page.segment? = none
  | load _ _ | refresh _ => True
  | store _ _ _ | fill _ _ | destroy _ => False

def Storeless : Change → Prop
  | store _ _ _ => False
  | _ => True

theorem Looks.storeless {c : Change} (h : c.Looks) : c.Storeless := by
  cases c <;> trivial

theorem Makes.storeless {c : Change} (h : c.Makes) : c.Storeless := by
  cases c <;> trivial

theorem Looks.lasts {c : Change} (h : c.Looks) : c.Bare ∧ c.Lasting := by
  cases c with
  | register => exact ⟨h, trivial⟩
  | load | refresh => exact ⟨trivial, trivial⟩
  | store | fill | destroy => exact h.elim

theorem looks_of_quiet {c : Change} (h : c.Quiet ∧ c.Bare ∧ c.Lasting) : c.Looks := by
  obtain ⟨hquiet, hbare, hlasting⟩ := h
  cases c with
  | register => exact hbare
  | load => trivial
  | refresh | store | fill => exact hquiet.elim
  | destroy => exact hlasting.elim

end Change

namespace Layout

variable {l l' : Layout} {id : PageId} {page : Page} {x : Hold} {f : FileId} {i k : Nat}
  {P : Option UInt8 → Prop} {c : Change} {cs : List Change} {s : SpaceId} {a sp cur : VirtAddr}
  {w : World}

/-- The byte of the file at this place, in the file and in each page in a frame. -/
structure Shows (P : Option UInt8 → Prop) (f : FileId) (i : Nat) (l : Layout) : Prop where
  file : P (l.data f)[i]?
  frame : ∀ id x, l.hold? id = some x → x.segment.Covers f i →
    P (l.bytes x.phys)[i - x.segment.offset]?

namespace Shows

theorem spill (h : Shows P f i l) (hx : l.hold? id = some x) (k : Nat) :
    P (l.spill x.segment x.phys k f)[i]? := by
  rw [Layout.spill, Function.update_apply]
  split
  next hf =>
    subst hf
    rw [Segment.getElem?_spill]
    split
    next hc => exact h.frame id x hx ⟨rfl, hc.1, by omega⟩
    next => exact h.file
  next => exact h.file

theorem of_shifts (h : Shows P f i l) (hm : l.Shifts l') : Shows P f i l' := by
  cases hm with
  | same hh hd hb =>
      refine ⟨by rw [hd]; exact h.file, fun o y hy hc => ?_⟩
      rw [hh] at hy
      rw [hb o y hy]
      exact h.frame o y hy hc
  | leave id x hx hh hb hd =>
      refine ⟨?_, fun o y hy hc => ?_⟩
      · rw [hd]
        split
        next => exact h.spill hx _
        next => exact h.file
      · rw [hh, Function.update_apply] at hy
        split at hy
        next => cases hy
        next =>
          rw [hb]
          exact h.frame o y hy hc
  | spoil id x k hx hdirty hh hb hd =>
      refine ⟨by rw [hd]; exact h.spill hx k, fun o y hy hc => ?_⟩
      rw [hh] at hy
      rw [hb]
      exact h.frame o y hy hc
  | enter id g p hn hg hfit hh hd hp hb =>
      refine ⟨by rw [hd]; exact h.file, fun o y hy hc => ?_⟩
      rw [hh, Function.update_apply] at hy
      split at hy
      next =>
        obtain rfl := Option.some.inj hy
        obtain ⟨rfl, hlo, hhi⟩ : g.Covers f i := hc
        change P (l'.bytes p)[i - g.offset]?
        rw [hp, Segment.getElem?_image hfit (by omega), Nat.add_sub_cancel' hlo]
        exact h.file
      next =>
        rw [hb o y hy]
        exact h.frame o y hy hc

theorem of_step (h : Shows P f i l) (hs : l.Sound) (hm : l.ChangeStep c l') (hk : c.Storeless) :
    Shows P f i l' := by
  have hquiet (hq : c.Quiet) (hl : l'.lost = l.lost) : Shows P f i l' :=
    h.of_shifts (shifts_of_step hs hm hq hl)
  have hframe (hb : l'.bytes = l.bytes) (o : PageId) (y : Hold) (hy : l'.hold? o = some y)
      (hc : y.segment.Covers f i) : P (l'.bytes y.phys)[i - y.segment.offset]? := by
    obtain ⟨z, hz, hg, hp⟩ := hold?_of_step hm hy
    rw [hb, ← hg, ← hp]
    exact h.frame o z hz (hg ▸ hc)
  cases hm with
  | store => exact hk.elim
  | refresh => exact ⟨h.file, hframe rfl⟩
  | fill id page j p b hin he =>
      refine ⟨h.file, fun o y hy hc => ?_⟩
      have hy : l.hold? o = some y := hy
      by_cases ho : o = id
      · subst ho
        have hseg := segment?_of_hold? hy
        rw [segment?, hin.1, Option.bind_some] at hseg
        obtain ⟨z, hz, -, rfl⟩ := exists_hold? hs hin hseg
        obtain rfl : y = z := Option.some.inj (hy.symm.trans hz)
        change P (Function.update l.bytes y.phys b y.phys)[i - y.segment.offset]?
        rw [Function.update_self]
        rcases he y.segment hseg with rfl | ⟨src, q, k, r, hsrc, hq, rfl⟩
        · exact h.frame o y hy hc
        · obtain ⟨z, hz, hg, rfl⟩ := exists_hold? hs hsrc hq
          rw [← hg]
          exact h.frame src z hz (hg ▸ hc)
      · obtain ⟨k, hhome, hp⟩ := home?_of_hold? hy
        change P (Function.update l.bytes p b y.phys)[i - y.segment.offset]?
        rw [bytes_other hs hin.2.2 hp (home?_ne_of_ne hs hin.home?_eq ho hhome)]
        exact h.frame o y hy hc
  | destroyLost id page j p g span dirty k hin hcont hd =>
      exact ⟨h.spill (hold?_file hin hcont) k, hframe rfl⟩
  | _ => exact hquiet trivial rfl

theorem of_course (h : Shows P f i l) (hs : l.Sound) (hm : l.Course cs l')
    (hcs : ∀ c ∈ cs, c.Storeless) : Shows P f i l' := by
  refine (hm.preserves (P := fun k => k.Sound ∧ Shows P f i k) ⟨hs, h⟩ ?_ ?_).2
  · exact fun hab h => ⟨h.1.of_hidden hab, h.2.of_shifts (shifts_of_hidden h.1 hab)⟩
  · exact fun hc hab h => ⟨h.1.of_step hab, h.2.of_step h.1 hab (hcs _ hc)⟩

end Shows

/-- Programs have looked at pages in between, and have not done more. -/
def Looked (l l' : Layout) : Prop := ∃ cs, l.Course cs l' ∧ ∀ c ∈ cs, c.Looks

namespace Looked

theorem of_eq (h : l' = l) : l.Looked l' := ⟨[], by rw [h]; exact .refl l, by simp⟩

theorem of_rearranged (h : l.Rearranged l') : l.Looked l' := ⟨[], .nil h, by simp⟩

theorem of_quiet (h : l.Course cs l') (hcs : ∀ c ∈ cs, c.Quiet ∧ c.Bare ∧ c.Lasting) :
    l.Looked l' :=
  ⟨cs, h, fun c hc => Change.looks_of_quiet (hcs c hc)⟩

theorem trans {l'' : Layout} (h : l.Looked l') (h' : l'.Looked l'') : l.Looked l'' := by
  obtain ⟨cs, hc, hcs⟩ := h
  obtain ⟨ds, hd, hds⟩ := h'
  exact ⟨cs ++ ds, hc.append hd, fun c hc => (List.mem_append.mp hc).elim (hcs c) (hds c)⟩

theorem of_refresh (h : l.Course [.refresh id] l') : l.Looked l' := ⟨_, h, by simp [Change.Looks]⟩

theorem sound (h : l.Looked l') (hs : l.Sound) : l'.Sound := by
  obtain ⟨cs, hc, -⟩ := h
  exact hs.of_course hc

theorem segment? (h : l.Looked l') : l'.segment? = l.segment? := by
  obtain ⟨cs, hc, hcs⟩ := h
  exact segment?_of_course hc fun c hmem => (hcs c hmem).lasts

theorem shows (h : l.Looked l') (hs : l.Sound) (hp : Shows P f i l) : Shows P f i l' := by
  obtain ⟨cs, hc, hcs⟩ := h
  exact hp.of_course hs hc fun c hmem => (hcs c hmem).storeless

end Looked

theorem Claimed.looked (h : l.Claimed id page cs l') : l.Looked l' := by
  rcases h.loads with hl | ⟨rfl, -⟩
  · exact .of_quiet h.course (loads_changes hl)
  · exact .of_refresh h.course

theorem Faulted.looked (h : l.Faulted s a sp w cs) (hc : l.Course cs l') : l.Looked l' := by
  rcases h with h | ⟨rfl, -⟩
  · exact .of_quiet hc (opens_changes h)
  · exact .of_refresh hc

namespace Reads

variable {len : Nat} {ws : List World} {bs : List UInt8} {e : Option Failure}

theorem looked (h : Reads s a sp k len ws bs e l l') : l.Looked l' := by
  induction h with
  | done | overflow => exact .of_eq rfl
  | stops _ _ _ hb hw => exact .of_quiet hw.course (balks_changes hb)
  | piece _ _ _ ho hw _ _ ih => exact (Looked.of_quiet hw.course (opens_changes ho)).trans ih

theorem length_slice_inPage (b : PageBytes) (cur : VirtAddr) (len : Nat) :
    (Bytes.slice b cur.offset (Machine.inPage cur len)).length = Machine.inPage cur len := by
  have := cur.offset_lt
  rw [Bytes.length_slice, Machine.inPage]
  omega

theorem length_eq (h : Reads s a sp k len ws bs e l l') (he : e = none) : bs.length = len := by
  induction h with
  | done => rfl
  | overflow | stops => cases he
  | @piece k n len ws bs e l l₁ l' cur cs page f p hd ha hn ho hw hin ht ih =>
      subst hn
      have hle := Machine.inPage_le cur len
      rw [List.length_append, length_slice_inPage, ih he]
      omega

theorem exists_byte (h : Reads s a sp k len ws bs e l l') {j : Nat} (hj : j < bs.length)
    (hcur : a.add? (k + j) = some cur) :
    ∃ l₁ page f p, l.Looked l₁ ∧ l₁.InFrame ⟨s, cur.page⟩ page f p ∧
      bs[j]? = (l₁.bytes p)[cur.offset]? := by
  induction h generalizing j with
  | done | overflow | stops => cases hj
  | @piece k n len ws bs e l l₁ l' first cs page f p hd ha hn ho hw hin ht ih =>
      subst hn
      have hlooked : l.Looked l₁ := .of_quiet hw.course (opens_changes ho)
      have hlen := length_slice_inPage (l₁.bytes p) first len
      rw [List.length_append, hlen] at hj
      by_cases hlt : j < Machine.inPage first len
      · have hle : Machine.inPage first len ≤ pageSize - first.offset := Nat.min_le_left ..
        have hnat : cur.toNat = first.toNat + j := by
          rw [VirtAddr.toNat_of_add? hcur, VirtAddr.toNat_of_add? ha, Nat.add_assoc]
        obtain ⟨hpage, hoff⟩ := VirtAddr.page_eq_of_offset hnat (by omega)
        refine ⟨l₁, page, f, p, hlooked, by rwa [hpage], ?_⟩
        rw [List.getElem?_append_left (by rwa [hlen]), Bytes.getElem?_slice, if_pos hlt, hoff]
      · have hj' : j - Machine.inPage first len < bs.length := by omega
        have hcur' : a.add? (k + Machine.inPage first len + (j - Machine.inPage first len)) =
            some cur := by
          rw [← hcur]
          congr 1
          omega
        obtain ⟨l₂, q, f', p', hlooked', hin', hb⟩ := ih hj' hcur'
        refine ⟨l₂, q, f', p', hlooked.trans hlooked', hin', ?_⟩
        rw [List.getElem?_append_right (by omega), hlen, hb]

end Reads

end Layout

namespace Op

variable {m t : Machine} {op : Op}

/-- Operations that only look at the pages, and changes of what the devices do. -/
def Looks : Op → Prop
  | read _ _ _ _ | claim _ _ | fault _ _ _ _ => True
  | refuse _ _ | armDisk _ _ | armFile _ _ _ _ _ _ => True
  | _ => False

theorem looked_run (hs : m.layout.Sound) (hu : m.layout.Unpinned) (ho : op.Looks) :
    m.layout.Looked (op.run m).2.layout := by
  have hperform {α : Type} {x : Step Machine α}
      (h : Ends x m (fun _ t => m.layout.Looked t.layout) (fun _ t => m.layout.Looked t.layout)) :
      m.layout.Looked (Machine.perform x m).2.layout :=
    Machine.perform_ends (Q := fun _ t => m.layout.Looked t.layout) h
  cases op with
  | read s a len sp =>
      apply Machine.performRead_ends (Q := fun _ t => m.layout.Looked t.layout) hs hu len
      exact fun e bs t h => h.looked
  | claim s a =>
      apply hperform ((Machine.claim_ends hs hu).mono ?_ ?_)
      · intro _ t h
        obtain ⟨page, cs, -, hc, -⟩ := h
        exact hc.looked
      · intro e t h
        exact .of_rearranged h.2.reach
  | fault s a flags sp =>
      apply hperform ((Machine.handleFault_ends hs hu).mono ?_ ?_)
      · intro _ t h
        obtain ⟨-, cs, hf, hw, -⟩ := h
        exact hf.looked hw.course
      · intro e t h
        obtain ⟨-, cs, hb, hw⟩ := h
        exact .of_quiet hw.course (Layout.balks_changes hb)
  | refuse s t => exact hperform (.of_eq (Machine.layout_setSpace_same m rfl rfl))
  | armDisk reads writes => exact hperform (.of_eq (layout_armDisk m reads writes))
  | armFile file => exact hperform (.of_eq (Machine.layout_withFile_same m rfl))
  | _ => exact ho.elim

end Op

theorem Page.Twins.segment? {p q : Page} {g : Segment} (h : p.Twins q)
    (hg : p.segment? = some g) : q.segment? = some g := by
  obtain ⟨w, c⟩ := p
  obtain ⟨w', d⟩ := q
  obtain ⟨-, hc⟩ := h
  cases hc with
  | drifts hc => cases hc <;> exact hg
  | lazy => exact hg

/-- While programs only look at pages, a page of a file stays one, and its file
and the frames show no other bytes than they did. -/
theorem Runs.shows {m u : Machine} {trail : List (Op × Report)} {P : Option UInt8 → Prop}
    {f : FileId} {i : Nat} {id : PageId} {g : Segment} (h : Runs m trail u)
    (hs : m.layout.Sound) (hu : m.layout.Unpinned) (ho : ∀ x ∈ trail, x.1.Looks)
    (hp : Layout.Shows P f i m.layout) (hg : m.layout.segment? id = some g) :
    u.layout.Sound ∧ u.layout.Unpinned ∧ Layout.Shows P f i u.layout ∧
      u.layout.segment? id = some g := by
  induction h with
  | nil => exact ⟨hs, hu, hp, hg⟩
  | @cons m t op trail ha _ ih =>
      obtain ⟨cs, hw, -⟩ := Op.goes_run hs hu ha
      have hlooked := Op.looked_run hs hu (ho _ List.mem_cons_self)
      exact ih (hlooked.sound hs) hw.unpinned (fun x hx => ho x (List.mem_cons_of_mem _ hx))
        (hlooked.shows hs hp) (by rw [hlooked.segment?, hg])

namespace Machine

variable {m u : Machine} {id : PageId} {page : Page} {g : Segment} {i : Nat}

theorem shows_of_alone (hpage : m.page? id = some page) (hg : page.segment? = some g)
    (halone : ∀ o g', m.segment? o = some g' → g'.Covers g.file i → o = id) :
    Layout.Shows (fun b => b = m.current? page g i ∨ b = m.fileByte? g.file i) g.file i
      m.layout where
  file := .inr rfl
  frame o x hx hc := by
    obtain rfl : o = id := halone o x.segment (Layout.segment?_of_hold? hx) hc
    obtain ⟨q, f, dirty, ⟨hq, hf, hp⟩, hcont, -⟩ := Layout.exists_of_hold? hx
    obtain rfl : page = q := Option.some.inj (hpage.symm.trans hq)
    rw [Page.segment?, hcont] at hg
    obtain rfl : x.segment = g := Option.some.inj hg
    obtain ⟨fr, hfr, hphys⟩ := Option.map_eq_some_iff.mp hp
    left
    rw [current?, hf]
    change _ = (m.layout.frames.get? f).bind (fun fr =>
      (m.layout.bytes fr.page)[i - x.segment.offset]?)
    rw [hfr, Option.bind_some, hphys]

theorem read_shows {P : Option UInt8 → Prop} {s : SpaceId} {a sp cur : VirtAddr} {len j : Nat}
    (hs : u.layout.Sound) (hu : u.layout.Unpinned)
    (hg : u.layout.segment? ⟨s, cur.page⟩ = some g)
    (hp : Layout.Shows P g.file (g.offset + cur.offset) u.layout)
    (hlt : cur.offset < g.length) (hcur : a.add? j = some cur) (hj : j < len)
    (hok : ((Op.read s a len sp).run u).1.failure = none) :
    P ((Op.read s a len sp).run u).1.bytes[j]? := by
  refine performRead_ends (Q := fun r _ => r.failure = none → P r.bytes[j]?) hs hu len ?_ hok
  intro e bs t hr he
  obtain ⟨l, page, f, p, hlooked, hin, hb⟩ := hr.exists_byte
    (by rw [hr.length_eq he]; exact hj) (by rw [Nat.zero_add]; exact hcur)
  have hg' : page.segment? = some g := by
    rw [← hg, ← hlooked.segment?, Layout.segment?, hin.1, Option.bind_some]
  obtain ⟨x, hx, rfl, rfl⟩ := Layout.exists_hold? (hlooked.sound hs) hin hg'
  have h := (hlooked.shows hs hp).frame _ x hx
    ⟨rfl, Nat.le_add_right .., Nat.add_lt_add_left hlt _⟩
  rwa [Nat.add_sub_cancel_left, ← hb] at h

end Machine

/-- What a child reads in a page of a file that it was given is what its parent
had there when it was forked, or what the file had. The former is lost if the
child's frame is taken before the parent's page is written to the file. -/
theorem Reachable.fork_inherits {m t u : Machine} (h : Reachable m) {parent child : SpaceId}
    {refusals : Trap} {order : List VirtPage}
    (ha : (Op.fork parent child refusals order).Admissible m)
    (hx : Machine.forkInOrder parent child refusals order m = .ok () t)
    {trail : List (Op × Report)} (hr : Runs t trail u) (ho : ∀ x ∈ trail, x.1.Looks)
    {a sp cur : VirtAddr} {len j : Nat} {page : Page} {g : Segment}
    (hpage : m.page? ⟨parent, cur.page⟩ = some page) (hg : page.segment? = some g)
    (hlt : cur.offset < g.length)
    (halone : ∀ id g', m.segment? id = some g' → g'.Covers g.file (g.offset + cur.offset) →
      id = ⟨parent, cur.page⟩)
    (hcur : a.add? j = some cur) (hj : j < len)
    (hok : ((Op.read child a len sp).run u).1.failure = none) :
    ((Op.read child a len sp).run u).1.bytes[j]? =
        m.current? page g (g.offset + cur.offset) ∨
      ((Op.read child a len sp).run u).1.bytes[j]? =
        m.fileByte? g.file (g.offset + cur.offset) := by
  obtain ⟨hs, hu⟩ := h.sound
  obtain ⟨hne, hv, hperm⟩ := ha
  obtain ⟨cs, hcopies⟩ := (Machine.forkInOrder_ends hs hu hne (Machine.nodup_of_perm_keys hperm) hv
    refusals).of_ok hx
  have hmem : cur.page ∈ order :=
    (Op.mem_order hperm _).mpr (Option.ne_none_iff_exists'.mpr ⟨page, hpage⟩)
  obtain ⟨q, hq, htwins⟩ := hcopies.twins _ hmem page hpage
  have hshows := (Machine.shows_of_alone hpage hg halone).of_course hs hcopies.course.course
    fun c hc => (hcopies.makes c hc).storeless
  have hseg : t.layout.segment? ⟨child, cur.page⟩ = some g := by
    rw [Layout.segment?, hq, Option.bind_some, htwins.segment? hg]
  obtain ⟨hsu, huu, hpu, hgu⟩ := hr.shows (hs.of_course hcopies.course.course)
    hcopies.course.unpinned ho hshows hseg
  exact Machine.read_shows hsu huu hgu hpu hlt hcur hj hok

theorem fork_inherits_dirty_page :
    ∃ m t u page, m = ((Op.write 0 ⟨4096⟩ [1, 2, 3] ⟨0⟩).run
        ((Op.alloc 0 .file ⟨4096⟩ true (some (.segment ⟨0, 0, 4, by decide⟩))).run
          (.boot {} (.ofCapacity 2) none [.ofList [7, 7, 7, 7]])).2).2 ∧
      t = ((Op.fork 0 1 {} [⟨1⟩]).run m).2 ∧ u = ((Op.read 0 ⟨4096⟩ 3 ⟨0⟩).run t).2 ∧
      m.page? ⟨0, ⟨1⟩⟩ = some page ∧
      (((Op.read 1 ⟨4097⟩ 2 ⟨0⟩).run u).1.bytes[1]? =
          m.current? page ⟨0, 0, 4, by decide⟩ 2 ∨
        ((Op.read 1 ⟨4097⟩ 2 ⟨0⟩).run u).1.bytes[1]? = m.fileByte? 0 2) := by
  have h₀ : Starts (.boot {} (.ofCapacity 2) none [.ofList [7, 7, 7, 7]]) :=
    ⟨{}, 2, none, [.ofList [7, 7, 7, 7]], by decide, by simp, rfl⟩
  have hr₁ : Runs (.boot {} (.ofCapacity 2) none [.ofList [7, 7, 7, 7]])
      [(.alloc 0 .file ⟨4096⟩ true (some (.segment ⟨0, 0, 4, by decide⟩)), _)] _ :=
    .cons trivial (.nil _)
  have hr₂ : Runs (.boot {} (.ofCapacity 2) none [.ofList [7, 7, 7, 7]])
      [(.alloc 0 .file ⟨4096⟩ true (some (.segment ⟨0, 0, 4, by decide⟩)), _),
        (.write 0 ⟨4096⟩ [1, 2, 3] ⟨0⟩, _)] _ := .cons trivial (.cons trivial (.nil _))
  obtain ⟨hs, hu⟩ := hr₁.sound h₀.sound.1 h₀.sound.2
  have hone {id : PageId} {g : Segment}
      (hg : ((Op.write 0 ⟨4096⟩ [1, 2, 3] ⟨0⟩).run
        ((Op.alloc 0 .file ⟨4096⟩ true (some (.segment ⟨0, 0, 4, by decide⟩))).run
          (.boot {} (.ofCapacity 2) none [.ofList [7, 7, 7, 7]])).2).2.segment? id = some g) :
      id = ⟨0, ⟨1⟩⟩ := by
    rw [(Op.write_lasting hs hu _).1] at hg
    rcases Op.segment?_alloc hg with hn | hid
    · rw [Machine.segment?, show Machine.page? _ id = none from Machine.page_boot ..] at hn
      cases hn
    · exact hid
  have h : Reachable ((Op.write 0 ⟨4096⟩ [1, 2, 3] ⟨0⟩).run
      ((Op.alloc 0 .file ⟨4096⟩ true (some (.segment ⟨0, 0, 4, by decide⟩))).run
        (.boot {} (.ofCapacity 2) none [.ofList [7, 7, 7, 7]])).2).2 := ⟨_, _, h₀, hr₂⟩
  generalize hm : ((Op.write 0 ⟨4096⟩ [1, 2, 3] ⟨0⟩).run
      ((Op.alloc 0 .file ⟨4096⟩ true (some (.segment ⟨0, 0, 4, by decide⟩))).run
        (.boot {} (.ofCapacity 2) none [.ofList [7, 7, 7, 7]])).2).2 = m at h hone
  have hkeys : (m.pages 0).keys = [⟨1⟩] := by rw [← hm]; decide +kernel
  have hchild : (m.pages 1).keys = [] := by rw [← hm]; decide +kernel
  have hseg : m.segment? ⟨0, ⟨1⟩⟩ = some ⟨0, 0, 4, by decide⟩ := by rw [← hm]; decide +kernel
  obtain ⟨page, hpage, hg⟩ := Option.bind_eq_some_iff.mp hseg
  have hfork : (Machine.perform (Machine.forkInOrder 0 1 {} [⟨1⟩]) m).1.failure = none := by
    rw [← hm]
    decide +kernel
  obtain ⟨_, hx⟩ := Machine.exists_ok_of_perform hfork
  have ha : (Op.fork 0 1 {} [⟨1⟩]).Admissible m :=
    ⟨by decide, Machine.page?_eq_none_of_keys hchild, by rw [hkeys]⟩
  have hru : Runs ((Op.fork 0 1 {} [⟨1⟩]).run m).2 [(.read 0 ⟨4096⟩ 3 ⟨0⟩, _)] _ :=
    .cons trivial (.nil _)
  have hok : ((Op.read 1 ⟨4097⟩ 2 ⟨0⟩).run ((Op.read 0 ⟨4096⟩ 3 ⟨0⟩).run
      ((Op.fork 0 1 {} [⟨1⟩]).run m).2).2).1.failure = none := by
    rw [← hm]
    decide +kernel
  have hcur : (⟨4097⟩ : VirtAddr).add? 1 = some ⟨4098⟩ := by decide
  have hpage' : m.page? ⟨0, (⟨4098⟩ : VirtAddr).page⟩ = some page := hpage
  exact ⟨m, _, _, page, rfl, rfl, rfl, hpage, Reachable.fork_inherits h ha hx hru
    (by simp [Op.Looks]) hpage' hg (by decide) (fun id g hg _ => hone hg) hcur (by decide) hok⟩

end Pager
