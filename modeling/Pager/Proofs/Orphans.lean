import Pager.Proofs.FailedClaims

namespace Pager

open Step

namespace Machine

variable {m t : Machine} {f : FrameId} {fr : Frame} {p : PhysPage} {i : Nat}

/-- A frame that could be had without moving a page. -/
def Orphan (m : Machine) (f : FrameId) : Prop :=
  ∃ fr, m.frames.get? f = some fr ∧ fr.pinned = false ∧ m.tenant? fr = none

/-- An orphan frame was had, and is full of zeros and pinned. Pages are where
they were, and no device was asked for anything. -/
structure Adopts (m : Machine) (f : FrameId) (p : PhysPage) (t : Machine) : Prop where
  orphan : m.Orphan f
  page : t.page? = m.page?
  mapping : ∀ id, Entry.Cools (m.mapping? id) (t.mapping? id)
  frames : ∃ hand, t.frames = { m.frames.pin f with hand := hand }
  phys : (m.frames.get? f).map Frame.page = some p
  ram : t.ram = m.ram.store p (Bytes.zero pageSize)
  rest : t = { m with spaces := t.spaces, frames := t.frames, ram := t.ram }

theorem Orphan.sitting? (h : m.Orphan f) : m.sitting? f = none := by
  obtain ⟨fr, hfr, hpin, hten⟩ := h
  rw [Machine.sitting?, hfr, Option.bind_some, hpin, if_neg Bool.false_ne_true, hten]

theorem Orphan.stops (h : m.Orphan f) : m.Stops f := by
  refine ⟨?_, fun id hid => ?_⟩
  · obtain ⟨fr, hfr, hpin, -⟩ := h
    exact ⟨fr, hfr, hpin⟩
  · rw [h.sitting?] at hid
    cases hid

theorem orphan_of_stops (h : m.Stops f) (hn : m.sitting? f = none) : m.Orphan f := by
  obtain ⟨⟨fr, hfr, hpin⟩, -⟩ := h
  rw [Machine.sitting?, hfr, Option.bind_some, hpin, if_neg Bool.false_ne_true] at hn
  exact ⟨fr, hfr, hpin, hn⟩

theorem First.pickVictim (h : m.First i) (hs : m.layout.Sound) (hu : m.layout.Unpinned) :
    ∃ u, Passed m i u ∧
      Machine.pickVictim m = .ok (m.ahead i) (u.onFrames FrameTable.advance) := by
  have hlt := hand_lt_size hs (Nat.zero_lt_of_lt h.lt)
  obtain ⟨u, hiu, hturn⟩ := h.turnHand hlt fun _ _ _ => sitting?_inj hs hu
  have hi := h.lt
  have htwo := hturn (2 * m.frames.size - i - 1)
  rw [show i + (2 * m.frames.size - i - 1) + 1 = 2 * m.frames.size by omega] at htwo
  have hends : Ends Machine.pickVictim m
      (fun f t => f = m.ahead i ∧ t = u.onFrames FrameTable.advance) (fun _ _ => False) := by
    simp only [Machine.pickVictim, ends_bind, ends_modifyGet, chooseVictim, htwo]
    exact ⟨rfl, rfl⟩
  obtain ⟨_, _, hx, rfl, rfl⟩ := hends.exists_ok
  exact ⟨u, hiu, hx⟩

/-- `r` stands for the memory with the zeros in it. -/
theorem Passed.adopts {u : Machine} (hu : Passed m i u) (hpos : 0 < m.frames.size)
    (h : m.Orphan f) (hfr : m.frames.get? f = some fr) {r : Ram}
    (hr : r = m.ram.store fr.page (Bytes.zero pageSize)) :
    m.Adopts f fr.page
      (((u.onFrames FrameTable.advance).onFrames fun x => x.pin f).withRam r) := by
  refine ⟨h, hu.page, (hu.sweeps hpos).unmoved.entry,
    ⟨(m.frames.hand + (i + 1)) % m.frames.size, ?_⟩, ?_, hr, ?_⟩
  · change u.frames.advance.pin f = _
    rw [hu.advance]
    rfl
  · rw [hfr, Option.map_some]
  · exact congrArg
      (fun t => ((t.onFrames FrameTable.advance).onFrames fun x => x.pin f).withRam r) hu.rest

theorem First.evict_ends (h : m.First i) (hs : m.layout.Sound) (hu : m.layout.Unpinned)
    (hfr : m.frames.get? (m.ahead i) = some fr) :
    Ends evict m
      (fun r t => r = (m.ahead i, fr.page) ∧ ∃ u, Passed m i u ∧
        (m.sitting? (m.ahead i) = none →
          t = (u.onFrames FrameTable.advance).onFrames fun x => x.pin (m.ahead i)) ∧
        ∀ id, m.sitting? (m.ahead i) = some id → ∃ l',
          (u.onFrames FrameTable.advance).layout.Leaves id (m.ahead i) fr.page l' ∧
          t.layout = { l' with frames := l'.frames.pin (m.ahead i) })
      (fun e t => (∃ k, e = .errno k) ∧ ∃ id u, m.sitting? (m.ahead i) = some id ∧
        Passed m i u ∧
        (u.onFrames FrameTable.advance).layout.Lingers id (m.ahead i) fr.page t.layout) := by
  obtain ⟨u, hiu, hpick⟩ := h.pickVictim hs hu
  have hsw := hiu.sweeps (Nat.zero_lt_of_lt h.lt)
  have hframes : (u.onFrames FrameTable.advance).frames =
      { m.frames with hand := (m.frames.hand + (i + 1)) % m.frames.size } := hiu.advance
  have howner : (u.onFrames FrameTable.advance).layout.owner? (m.ahead i) =
      m.sitting? (m.ahead i) := by
    rw [sitting?_eq_owner? hs hu]
    exact congrArg (fun x => x.owner? (m.ahead i)) hframes
  have hfr' : (u.onFrames FrameTable.advance).frames.get? (m.ahead i) = some fr := by
    rw [hframes]
    exact hfr
  have hat := evict_at hpick (hs.of_hidden hsw.hidden) (hsw.unpinned hu) hfr'
  rw [howner] at hat
  refine hat.mono ?_ ?_
  · rintro _ t ⟨rfl, hnone, hsome⟩
    exact ⟨rfl, u, hiu, hnone, hsome⟩
  · rintro e t ⟨he, id, hid, hl⟩
    exact ⟨he, id, u, hid, hiu, hl⟩

theorem First.acquireFrame_ends (h : m.First i) (hs : m.layout.Sound) (hu : m.layout.Unpinned)
    (hf : m.layout.Fitting) (hfree : m.ram.free = []) :
    Ends acquireFrame m
      (fun r t => r.1 = m.ahead i ∧
        (m.sitting? (m.ahead i) = none → m.Adopts (m.ahead i) r.2 t) ∧
        ∀ id, m.sitting? (m.ahead i) = some id →
          m.layout.Evicted id t.layout ∧ m.layout.Disturbs (some id) t.layout)
      (fun e t => (∃ k, e = .errno k) ∧ ∃ id, m.sitting? (m.ahead i) = some id ∧
        m.layout.StaysPut id t.layout ∧ m.layout.Disturbs (some id) t.layout) := by
  have hpos : 0 < m.frames.size := Nat.zero_lt_of_lt h.lt
  obtain ⟨⟨fr, hfr, -⟩, -⟩ := h.stops
  simp only [acquireFrame, takeFrame, ends_bind, ends_get, Ram.alloc?, hfree]
  apply (h.evict_ends hs hu hfr).mono
  · rintro _ t ⟨rfl, u, hiu, hnone, hsome⟩
    have hsw := hiu.sweeps hpos
    cases hsit : m.sitting? (m.ahead i) with
    | none =>
        obtain rfl := hnone hsit
        have hram : ((u.onFrames FrameTable.advance).onFrames fun x => x.pin (m.ahead i)).ram =
            m.ram := (congrArg Machine.ram hiu.rest :)
        have hphys : m.layout.phys? (m.ahead i) = some fr.page := by
          change (m.frames.get? (m.ahead i)).map Frame.page = _
          rw [hfr, Option.map_some]
        have hrange : Ram.InRange ((u.onFrames FrameTable.advance).onFrames
            fun x => x.pin (m.ahead i)).ram.capacity fr.page := by
          rw [hram]
          exact hs.inRange hphys
        simp only [ends_writeFrame hrange, ends_pure]
        refine ⟨trivial, fun _ => ?_, by rintro id ⟨⟩⟩
        exact hiu.adopts hpos (orphan_of_stops h.stops hsit) hfr
          (congrArg (fun r => r.store fr.page (Bytes.zero pageSize)) hram)
    | some id =>
        obtain ⟨l', hl', hl⟩ := hsome id hsit
        have hsu := hs.of_hidden hsw.hidden
        have hs' := hsu.of_hidden hl'.hidden
        have hrange : Ram.InRange t.ram.capacity fr.page := by
          rw [show t.ram.capacity = l'.capacity from congrArg Layout.capacity hl]
          exact hs'.inRange hl'.spare.1
        simp only [ends_writeFrame hrange, ends_pure]
        refine ⟨trivial, fun hn => (by cases hn), ?_⟩
        rintro _ ⟨⟩
        rw [layout_store t hrange, hl]
        have hafter := (Layout.unmoved_scribble hs' hl'.spare (Bytes.zero pageSize)).trans
          (Layout.unmoved_pin _ (m.ahead i))
        exact ⟨(hl'.evicted hsu (hsw.unmoved.fitting hs hf)).between hsw.unmoved hs hafter,
          (hl'.disturbs hsu).between hsw.unmoved hs hafter⟩
  · rintro e t ⟨he, id, u, hid, hiu, hl⟩
    have hsw := hiu.sweeps hpos
    refine ⟨he, id, hid, hl.staysPut.between hsw.unmoved hs (.refl _) ?_,
      hl.disturbs.between hsw.unmoved hs (.refl _)⟩
    exact (hs.of_hidden hsw.hidden).of_rearranged hl.rearranged

end Machine

/-- While there is an orphan frame, the hand stops in its first round. It takes
an orphan frame if the first page that it comes by which was not accessed is
behind one; else that page has to go, or the frame is not had at all. -/
theorem Reachable.acquireFrame_of_orphan {m : Machine} (h : Reachable m) (hfree : m.ram.free = [])
    {f : FrameId} (hf : m.Orphan f) :
    ∃ i, m.First i ∧
      ((m.Orphan (m.ahead i) ∧ ∃ p t, Machine.acquireFrame m = .ok (m.ahead i, p) t ∧
        m.Adopts (m.ahead i) p t) ∨
      ∃ id, m.sitting? (m.ahead i) = some id ∧ Ends Machine.acquireFrame m
        (fun r t => r.1 = m.ahead i ∧ m.layout.Evicted id t.layout ∧
          m.layout.Disturbs (some id) t.layout)
        (fun e t => (∃ k, e = .errno k) ∧ m.layout.StaysPut id t.layout ∧
          m.layout.Disturbs (some id) t.layout)) := by
  obtain ⟨hs, hu⟩ := h.sound
  have hpos : 0 < m.frames.size := by
    obtain ⟨fr, hfr, -⟩ := hf
    exact Nat.zero_lt_of_lt (Array.getElem?_eq_some_iff.mp hfr).1
  obtain ⟨i, hi⟩ := Machine.exists_first (Machine.hand_lt_size hs hpos) hf.stops
  have hends := hi.acquireFrame_ends hs hu h.fitting hfree
  refine ⟨i, hi, ?_⟩
  cases hsit : m.sitting? (m.ahead i) with
  | none =>
      left
      have hok : Ends Machine.acquireFrame m
          (fun r t => r.1 = m.ahead i ∧ m.Adopts (m.ahead i) r.2 t) (fun _ _ => False) := by
        refine hends.mono (fun r t hr => ⟨hr.1, hr.2.1 hsit⟩) ?_
        rintro e t ⟨-, id, hid, -⟩
        rw [hsit] at hid
        cases hid
      obtain ⟨⟨_, p⟩, t, hx, rfl, hadopts⟩ := hok.exists_ok
      exact ⟨hadopts.orphan, p, t, hx, hadopts⟩
  | some id =>
      refine .inr ⟨id, rfl, hends.mono (fun r t hr => ⟨hr.1, hr.2.2 id hsit⟩) ?_⟩
      rintro e t ⟨he, o, ho, hput⟩
      obtain rfl : id = o := Option.some.inj (hsit.symm.trans ho)
      exact ⟨he, hput⟩

theorem acquireFrame_of_orphan_behind_page :
    ∃ m, m = ((Op.remove 0 ⟨8192⟩).run ((Op.claim 0 ⟨8192⟩).run
        ((Op.alloc 0 .anon ⟨8192⟩ true none).run ((Op.claim 0 ⟨4096⟩).run
          ((Op.alloc 0 .anon ⟨4096⟩ true none).run
            (.boot {} (.ofCapacity 2) none [])).2).2).2).2).2 ∧
      m.ram.free = [] ∧ m.Orphan ⟨1⟩ ∧
      ∃ i, m.First i ∧
        ((m.Orphan (m.ahead i) ∧ ∃ p t, Machine.acquireFrame m = .ok (m.ahead i, p) t ∧
          m.Adopts (m.ahead i) p t) ∨
        ∃ id, m.sitting? (m.ahead i) = some id ∧ Ends Machine.acquireFrame m
          (fun r t => r.1 = m.ahead i ∧ m.layout.Evicted id t.layout ∧
            m.layout.Disturbs (some id) t.layout)
          (fun e t => (∃ k, e = .errno k) ∧ m.layout.StaysPut id t.layout ∧
            m.layout.Disturbs (some id) t.layout)) := by
  have h₀ : Starts (.boot {} (.ofCapacity 2) none []) :=
    ⟨{}, 2, none, [], by decide, by rintro d ⟨⟩, rfl⟩
  have hr : Runs (.boot {} (.ofCapacity 2) none [])
      [(.alloc 0 .anon ⟨4096⟩ true none, _), (.claim 0 ⟨4096⟩, _),
        (.alloc 0 .anon ⟨8192⟩ true none, _), (.claim 0 ⟨8192⟩, _), (.remove 0 ⟨8192⟩, _)] _ :=
    .cons trivial (.cons trivial (.cons trivial (.cons trivial (.cons trivial (.nil _)))))
  have h : Reachable ((Op.remove 0 ⟨8192⟩).run ((Op.claim 0 ⟨8192⟩).run
      ((Op.alloc 0 .anon ⟨8192⟩ true none).run ((Op.claim 0 ⟨4096⟩).run
        ((Op.alloc 0 .anon ⟨4096⟩ true none).run
          (.boot {} (.ofCapacity 2) none [])).2).2).2).2).2 := ⟨_, _, h₀, hr⟩
  generalize hm : ((Op.remove 0 ⟨8192⟩).run ((Op.claim 0 ⟨8192⟩).run
      ((Op.alloc 0 .anon ⟨8192⟩ true none).run ((Op.claim 0 ⟨4096⟩).run
        ((Op.alloc 0 .anon ⟨4096⟩ true none).run
          (.boot {} (.ofCapacity 2) none [])).2).2).2).2).2 = m at h
  have hfree : m.ram.free = [] := by
    rw [← hm]
    decide +kernel
  have hframe : (m.frames.get? ⟨1⟩).map (fun fr => (fr.pinned, m.tenant? fr)) =
      some (false, none) := by
    rw [← hm]
    decide +kernel
  have horphan : m.Orphan ⟨1⟩ := by
    obtain ⟨fr, hfr, heq⟩ := Option.map_eq_some_iff.mp hframe
    exact ⟨fr, hfr, congrArg Prod.fst heq, congrArg Prod.snd heq⟩
  exact ⟨m, rfl, hfree, horphan, Reachable.acquireFrame_of_orphan h hfree horphan⟩

end Pager
