import Pager.Proofs.Invariance

namespace Pager

namespace Machine

variable {m t : Machine} {f : FrameId} {id : PageId} {i n : Nat}

def Takeable (m : Machine) (f : FrameId) : Prop :=
  ∃ fr, m.frames.get? f = some fr ∧ fr.pinned = false

/-- Nothing stops the hand in its first round, which leaves every page cold. In
the second one it stops where it first can. -/
structure Second (m : Machine) (i : Nat) : Prop where
  lt : i < m.frames.size
  takeable : m.Takeable (m.ahead i)
  pinned : ∀ j < i, ¬m.Takeable (m.ahead j)
  passes : ∀ f, ¬m.Stops f

/-- The hand rests behind `f`. The pages in the frames that were passed over have
lost their accessed bits, and this is all that is different. -/
structure Settles (m : Machine) (passed : FrameId → Prop) (f : FrameId) (t : Machine) : Prop where
  frames : t.frames = { m.frames with hand := (f.index + 1) % m.frames.size }
  cooled : ∀ g id, passed g → m.sitting? g = some id →
    t.mapping? id = (m.mapping? id).map (fun e => e.set .accessed false)
  kept : ∀ id, (∀ g, passed g → m.sitting? g ≠ some id) → t.mapping? id = m.mapping? id
  page : t.page? = m.page?
  refusals : ∀ s, (t.space s).refusals = (m.space s).refusals
  rest : t = { m with spaces := t.spaces, frames := t.frames }

theorem takeable_of_sitting? (h : m.sitting? f = some id) : m.Takeable f := by
  obtain ⟨fr, hfr, hpin, -⟩ := exists_of_sitting? h
  exact ⟨fr, hfr, hpin⟩

theorem Passed.takeable (h : Passed m i t) : t.Takeable f ↔ m.Takeable f := by
  rw [Takeable, Takeable, h.frames]
  rfl

theorem ahead_size_add (i : Nat) : m.ahead (m.frames.size + i) = m.ahead i := by
  rw [ahead, ahead, Nat.add_left_comm, Nat.add_mod_left]

theorem exists_second (hlt : m.frames.hand < m.frames.size) (h : m.Takeable f)
    (hn : ∀ f, ¬m.Stops f) : ∃ i, m.Second i := by
  classical
  have ⟨fr, hfr, _⟩ := h
  obtain ⟨hf, -⟩ := Array.getElem?_eq_some_iff.mp hfr
  obtain ⟨k, hk, rfl⟩ := exists_ahead hlt hf
  have hex : ∃ i, m.Takeable (m.ahead i) := ⟨k, h⟩
  exact ⟨Nat.find hex, (Nat.find_min' hex h).trans_lt hk, Nat.find_spec hex,
    fun j hj => Nat.find_min hex hj, hn⟩

theorem refusals_takeAccessed (m : Machine) (id : PageId) (s : SpaceId) :
    ((m.takeAccessed id).2.space s).refusals = (m.space s).refusals := by
  rw [takeAccessed]
  split
  · rw [setFlag, setTable, space_setSpace]
    split
    next h => rw [h]
    next => rfl
  · rfl

theorem refusals_turnHand (n : Nat) (m : Machine) (s : SpaceId) :
    ((m.turnHand n).2.space s).refusals = (m.space s).refusals := by
  fun_induction turnHand n m with
  | case5 n m f fr hfr m' hpin id hten u htake ih =>
      rw [ih, show u = (m'.takeAccessed id).2 by rw [htake], refusals_takeAccessed]
      rfl
  | case6 n m f fr hfr m' hpin id hten u htake =>
      rw [show u = (m'.takeAccessed id).2 by rw [htake], refusals_takeAccessed]
      rfl
  | _ => first | rfl | assumption

theorem Passed.settles (h : Passed m i t) (hr : ∀ s, (t.space s).refusals = (m.space s).refusals) :
    m.Settles (fun g => ∃ j < i, g = m.ahead j) (m.ahead i) (t.onFrames FrameTable.advance) where
  frames := by
    rw [ahead, Nat.mod_add_mod]
    exact h.advance
  cooled := by
    rintro _ id ⟨j, hj, rfl⟩ hid
    exact h.cooled j hj id hid
  kept id hid := h.kept id fun j hj => hid _ ⟨j, hj, rfl⟩
  page := h.page
  refusals := hr
  rest := congrArg (onFrames FrameTable.advance) h.rest

theorem Settles.everywhere {passed : FrameId → Prop} (h : m.Settles passed f t)
    (hall : ∀ g id, m.sitting? g = some id → passed g) : m.Settles (fun _ => True) f t where
  frames := h.frames
  cooled g id _ hid := h.cooled g id (hall g id hid) hid
  kept id hid := h.kept id fun g _ => hid g trivial
  page := h.page
  refusals := h.refusals
  rest := h.rest

theorem Second.turnHand (h : m.Second i) (hlt : m.frames.hand < m.frames.size)
    (hinj : ∀ f g id, m.sitting? f = some id → m.sitting? g = some id → f = g) :
    ∃ t, Passed m (m.frames.size + i) t ∧ ∀ n, m.turnHand (m.frames.size + i + n + 1) =
      (some (m.ahead i), t.onFrames FrameTable.advance) := by
  obtain ⟨t, ht, hturn⟩ := exists_passed hlt fun j hj u hu => by
    rcases Nat.lt_or_ge j m.frames.size with hfirst | hsecond
    · rw [hu.stops_ahead hfirst hinj]
      exact h.passes _
    · obtain ⟨k, rfl⟩ := Nat.exists_eq_add_of_le hsecond
      rintro ⟨htake, -⟩
      rw [ahead_size_add] at htake
      exact h.pinned k (Nat.lt_of_add_lt_add_left hj) (hu.takeable.mp htake)
  have hstop : t.Stops ⟨t.frames.hand⟩ := by
    rw [ht.hand, ahead_size_add]
    have := h.lt
    refine ⟨ht.takeable.mpr h.takeable, fun id hid => ht.cold (j := i) (by omega) ?_⟩
    rwa [ht.sitting?] at hid
  refine ⟨t, ht, fun n => ?_⟩
  rw [Nat.add_assoc, hturn, turnHand_stop hstop, ht.hand, ahead_size_add]

theorem turnHand_of_pinned (hlt : m.frames.hand < m.frames.size) (h : ∀ f, ¬m.Takeable f)
    (n : Nat) :
    m.turnHand n = (none, m.onFrames fun t => { t with hand := (t.hand + n) % t.size }) := by
  induction n generalizing m with
  | zero =>
      have : (m.frames.hand + 0) % m.frames.size = m.frames.hand := Nat.mod_eq_of_lt hlt
      rw [turnHand, onFrames, this]
  | succ n ih =>
      have hsit : m.sitting? ⟨m.frames.hand⟩ = none := by
        cases hid : m.sitting? ⟨m.frames.hand⟩ with
        | none => rfl
        | some id => exact absurd (takeable_of_sitting? hid) (h _)
      have hpass : m.pass = m.onFrames FrameTable.advance := by rw [pass, hsit]
      have hturn : ((m.frames.hand + 1) % m.frames.size + n) % m.frames.size =
          (m.frames.hand + (n + 1)) % m.frames.size := by
        rw [Nat.mod_add_mod, Nat.add_assoc, Nat.add_comm 1]
      have hnext := @ih (m.onFrames FrameTable.advance) (Nat.mod_lt _ (Nat.zero_lt_of_lt hlt)) h
      rw [turnHand_pass hlt fun hs => h _ hs.1, hpass, hnext]
      exact congrArg (fun k => (none, m.onFrames fun t => { t with hand := k })) hturn

theorem chooseVictim_of_pinned (hlt : m.frames.hand < max 1 m.frames.size)
    (h : ∀ f, ¬m.Takeable f) : m.chooseVictim = (none, m) := by
  rcases Nat.eq_zero_or_pos m.frames.size with hz | hpos
  · rw [chooseVictim, hz]
    rfl
  · have hlt : m.frames.hand < m.frames.size := by omega
    have : (m.frames.hand + 2 * m.frames.size) % m.frames.size = m.frames.hand := by
      rw [Nat.add_mul_mod_self_right, Nat.mod_eq_of_lt hlt]
    rw [chooseVictim, turnHand_of_pinned hlt h, onFrames, this]

theorem exists_turnHand (hlt : m.frames.hand < m.frames.size)
    (hinj : ∀ f g id, m.sitting? f = some id → m.sitting? g = some id → f = g)
    (h : m.Takeable f) :
    ∃ i t, (∀ n, 2 * m.frames.size ≤ n → m.turnHand n = (some (m.ahead i), t)) ∧
      (m.First i ∧ m.Settles (fun g => ∃ j < i, g = m.ahead j) (m.ahead i) t ∨
        m.Second i ∧ m.Settles (fun _ => True) (m.ahead i) t) := by
  by_cases hstop : ∃ g, m.Stops g
  · obtain ⟨g, hg⟩ := hstop
    obtain ⟨i, hi⟩ := exists_first hlt hg
    obtain ⟨t, ht, hturn⟩ := hi.turnHand hlt hinj
    refine ⟨i, _, fun n hn => ?_, .inl ⟨hi, ht.settles fun s => ?_⟩⟩
    · have := hi.lt
      rw [← hturn (n - i - 1), show i + (n - i - 1) + 1 = n by omega]
    · rw [← refusals_turnHand (i + 0 + 1) m s, hturn 0]
      rfl
  · obtain ⟨i, hi⟩ := exists_second hlt h (not_exists.mp hstop)
    obtain ⟨t, ht, hturn⟩ := hi.turnHand hlt hinj
    have hlen := hi.lt
    have hset : m.Settles _ (m.ahead (m.frames.size + i)) (t.onFrames FrameTable.advance) :=
      ht.settles fun s => by
        rw [← refusals_turnHand (m.frames.size + i + 0 + 1) m s, hturn 0]
        rfl
    rw [ahead_size_add] at hset
    refine ⟨i, _, fun n hn => ?_, .inr ⟨hi, hset.everywhere fun g id hid => ?_⟩⟩
    · rw [← hturn (n - m.frames.size - i - 1),
        show m.frames.size + i + (n - m.frames.size - i - 1) + 1 = n by omega]
    · obtain ⟨fr, hfr, -⟩ := exists_of_sitting? hid
      obtain ⟨hg, -⟩ := Array.getElem?_eq_some_iff.mp hfr
      obtain ⟨k, hk, rfl⟩ := exists_ahead hlt hg
      exact ⟨k, by omega, rfl⟩

/-- The clock gives each page one second chance. The hand stops at the first
frame whose page, if there is one, was not accessed; where there is none it stops
at the first that is not pinned. Two rounds are as good as any number. -/
theorem chooseVictim_secondChance (hlt : m.frames.hand < max 1 m.frames.size)
    (hinj : ∀ f g id, m.sitting? f = some id → m.sitting? g = some id → f = g) :
    (m.chooseVictim.1 = none ↔ ∀ f fr, m.frames.get? f = some fr → fr.pinned = true) ∧
      (m.chooseVictim.1 = none → m.chooseVictim.2 = m) ∧
      ∀ f t, m.chooseVictim = (some f, t) →
        (∀ n, 2 * m.frames.size ≤ n → m.turnHand n = (some f, t)) ∧
        ∃ i, f = m.ahead i ∧
          (m.First i ∧ m.Settles (fun g => ∃ j < i, g = m.ahead j) f t ∨
            m.Second i ∧ m.Settles (fun _ => True) f t) := by
  by_cases htake : ∃ g, m.Takeable g
  · obtain ⟨g, hg⟩ := htake
    have ⟨fr, hfr, hpin⟩ := hg
    obtain ⟨hf, -⟩ := Array.getElem?_eq_some_iff.mp hfr
    have hpos : 0 < m.frames.size := Nat.zero_lt_of_lt hf
    obtain ⟨i, u, hturn, hset⟩ := exists_turnHand (by omega) hinj hg
    have hchoose : m.chooseVictim = (some (m.ahead i), u) := hturn _ le_rfl
    rw [hchoose]
    refine ⟨⟨by rintro ⟨⟩, fun hall => ?_⟩, by rintro ⟨⟩, ?_⟩
    · rw [hall g fr hfr] at hpin
      cases hpin
    · rintro _ _ ⟨⟩
      exact ⟨hturn, i, rfl, hset⟩
  · have hnone : m.chooseVictim = (none, m) := chooseVictim_of_pinned hlt (not_exists.mp htake)
    rw [hnone]
    refine ⟨⟨fun _ f fr hfr => ?_, fun _ => rfl⟩, fun _ => rfl, by rintro f t ⟨⟩⟩
    by_contra hpin
    exact htake ⟨f, fr, hfr, Bool.eq_false_iff.mpr hpin⟩

theorem chooseVictim_two_hot_pages :
    ∃ m, m = ((Op.read 0 ⟨8192⟩ 1 ⟨0⟩).run ((Op.alloc 0 .anon ⟨8192⟩ true none).run
        ((Op.read 0 ⟨4096⟩ 1 ⟨0⟩).run ((Op.alloc 0 .anon ⟨4096⟩ true none).run
          (.boot {} (.ofCapacity 2) none [])).2).2).2).2 ∧
      m.chooseVictim.1 = some ⟨0⟩ ∧
      m.frames.hand < max 1 m.frames.size ∧
      (∀ f g id, m.sitting? f = some id → m.sitting? g = some id → f = g) ∧
      (m.chooseVictim.1 = none ↔ ∀ f fr, m.frames.get? f = some fr → fr.pinned = true) ∧
        (m.chooseVictim.1 = none → m.chooseVictim.2 = m) ∧
        ∀ f t, m.chooseVictim = (some f, t) →
          (∀ n, 2 * m.frames.size ≤ n → m.turnHand n = (some f, t)) ∧
          ∃ i, f = m.ahead i ∧
            (m.First i ∧ m.Settles (fun g => ∃ j < i, g = m.ahead j) f t ∨
              m.Second i ∧ m.Settles (fun _ => True) f t) := by
  have h₀ : Starts (.boot {} (.ofCapacity 2) none []) :=
    ⟨{}, 2, none, [], by decide, by rintro d ⟨⟩, rfl⟩
  have hr : Runs (.boot {} (.ofCapacity 2) none [])
      [(.alloc 0 .anon ⟨4096⟩ true none, _), (.read 0 ⟨4096⟩ 1 ⟨0⟩, _),
        (.alloc 0 .anon ⟨8192⟩ true none, _), (.read 0 ⟨8192⟩ 1 ⟨0⟩, _)] _ :=
    .cons trivial (.cons trivial (.cons trivial (.cons trivial (.nil _))))
  have h : Reachable ((Op.read 0 ⟨8192⟩ 1 ⟨0⟩).run ((Op.alloc 0 .anon ⟨8192⟩ true none).run
      ((Op.read 0 ⟨4096⟩ 1 ⟨0⟩).run ((Op.alloc 0 .anon ⟨4096⟩ true none).run
        (.boot {} (.ofCapacity 2) none [])).2).2).2).2 := ⟨_, _, h₀, hr⟩
  generalize hm : ((Op.read 0 ⟨8192⟩ 1 ⟨0⟩).run ((Op.alloc 0 .anon ⟨8192⟩ true none).run
      ((Op.read 0 ⟨4096⟩ 1 ⟨0⟩).run ((Op.alloc 0 .anon ⟨4096⟩ true none).run
        (.boot {} (.ofCapacity 2) none [])).2).2).2).2 = m at h
  have hvictim : m.chooseVictim.1 = some ⟨0⟩ := by
    rw [← hm]
    decide +kernel
  have hlt : m.frames.hand < max 1 m.frames.size := by
    rw [← hm]
    decide +kernel
  have hinj (f g : FrameId) (id : PageId) :
      m.sitting? f = some id → m.sitting? g = some id → f = g :=
    sitting?_inj h.sound.1 h.sound.2
  exact ⟨m, rfl, hvictim, hlt, hinj, chooseVictim_secondChance hlt hinj⟩

end Machine

end Pager
