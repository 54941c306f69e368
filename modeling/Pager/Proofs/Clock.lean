import Pager.Proofs.Devices
import Mathlib.Data.Nat.Find
import Mathlib.Data.Nat.ModEq

namespace Pager.Machine

open Step

variable {m t : Machine} {f : FrameId} {fr : Frame} {id : PageId} {i n : Nat}

theorem tenant?_eq_owner? (hs : m.layout.Sound) {fr : Frame} (hfr : m.frames.get? f = some fr) :
    m.tenant? fr = m.layout.owner? f := by
  have howner : m.layout.owner? f = fr.owner := by
    change (m.frames.get? f).bind Frame.owner = _
    rw [hfr, Option.bind_some]
  cases ho : m.layout.owner? f with
  | none => rw [tenant?, ← howner, ho, Option.filter_none]
  | some id =>
      obtain ⟨page, hpage, -⟩ := Option.bind_eq_some_iff.mp ((hs.owners f id).mp ho)
      have hreg : m.page? id = some page := hpage
      exact (tenant?_eq_some m id).mpr ⟨howner ▸ ho, by rw [hreg, Option.isSome_some]⟩

def ahead (m : Machine) (i : Nat) : FrameId := ⟨(m.frames.hand + i) % m.frames.size⟩

def sitting? (m : Machine) (f : FrameId) : Option PageId :=
  (m.frames.get? f).bind fun fr => if fr.pinned then none else m.tenant? fr

/-- The hand stops at the frame: it is not pinned, and if a page is in it then
one that was not accessed since the hand last came by. -/
def Stops (m : Machine) (f : FrameId) : Prop :=
  (∃ fr, m.frames.get? f = some fr ∧ fr.pinned = false) ∧
    ∀ id, m.sitting? f = some id → m.hasFlag id .accessed = false

theorem exists_of_sitting? (h : m.sitting? f = some id) :
    ∃ fr, m.frames.get? f = some fr ∧ fr.pinned = false ∧ m.tenant? fr = some id := by
  obtain ⟨fr, hfr, hid⟩ := Option.bind_eq_some_iff.mp h
  split at hid
  next => cases hid
  next hpin => exact ⟨fr, hfr, Bool.eq_false_iff.mpr hpin, hid⟩

def pass (m : Machine) : Machine :=
  match m.sitting? ⟨m.frames.hand⟩ with
  | none => m.onFrames FrameTable.advance
  | some id => (m.onFrames FrameTable.advance).setFlag id .accessed false

theorem turnHand_stop (h : m.Stops ⟨m.frames.hand⟩) :
    m.turnHand (n + 1) = (some ⟨m.frames.hand⟩, m.onFrames FrameTable.advance) := by
  obtain ⟨⟨fr, hfr, hpin⟩, hcold⟩ := h
  have hsit : m.sitting? ⟨m.frames.hand⟩ = m.tenant? fr := by
    rw [sitting?, hfr, Option.bind_some, hpin, if_neg Bool.false_ne_true]
  rw [hsit] at hcold
  simp only [turnHand, hfr, hpin, Bool.false_eq_true, if_false]
  rw [show (m.onFrames FrameTable.advance).tenant? = m.tenant? from rfl]
  cases ht : m.tenant? fr with
  | none => rfl
  | some id =>
      have htake : (m.onFrames FrameTable.advance).takeAccessed id =
          (false, m.onFrames FrameTable.advance) :=
        if_neg (ne_true_of_eq_false (hcold id ht))
      simp only [htake]

theorem turnHand_pass (hlt : m.frames.hand < m.frames.size) (h : ¬m.Stops ⟨m.frames.hand⟩) :
    m.turnHand (n + 1) = m.pass.turnHand n := by
  have hfr : m.frames.get? ⟨m.frames.hand⟩ = some m.frames.frames[m.frames.hand] :=
    Array.getElem?_eq_getElem hlt
  have hsit : m.sitting? ⟨m.frames.hand⟩ = if m.frames.frames[m.frames.hand].pinned then none else
      m.tenant? m.frames.frames[m.frames.hand] := by
    rw [sitting?, hfr, Option.bind_some]
  simp only [turnHand, hfr]
  cases hpin : m.frames.frames[m.frames.hand].pinned with
  | true =>
      rw [hpin, if_pos rfl] at hsit
      rw [if_pos rfl, pass, hsit]
  | false =>
      rw [hpin, if_neg Bool.false_ne_true] at hsit
      rw [if_neg Bool.false_ne_true, pass, hsit,
        show (m.onFrames FrameTable.advance).tenant? = m.tenant? from rfl]
      cases ht : m.tenant? m.frames.frames[m.frames.hand] with
      | none =>
          refine absurd ⟨⟨_, hfr, hpin⟩, fun id hid => ?_⟩ h
          rw [hsit, ht] at hid
          cases hid
      | some id =>
          have hhot : m.hasFlag id .accessed = true := by
            by_contra hn
            refine h ⟨⟨_, hfr, hpin⟩, fun o ho => ?_⟩
            obtain rfl : id = o := Option.some.inj (by rw [← ht, ← hsit, ho])
            exact Bool.eq_false_iff.mpr hn
          have htake : (m.onFrames FrameTable.advance).takeAccessed id =
              (true, (m.onFrames FrameTable.advance).setFlag id .accessed false) :=
            if_pos hhot
          simp only [htake]

/-- The hand has passed over `i` frames, which cooled the pages in them. -/
structure Passed (m : Machine) (i : Nat) (t : Machine) : Prop where
  frames : t.frames = { m.frames with hand := (m.frames.hand + i) % m.frames.size }
  rest : t = { m with spaces := t.spaces, frames := t.frames }
  page : t.page? = m.page?
  cooled : ∀ j < i, ∀ id, m.sitting? (m.ahead j) = some id →
    t.mapping? id = (m.mapping? id).map (fun e => e.set .accessed false)
  kept : ∀ id, (∀ j < i, m.sitting? (m.ahead j) ≠ some id) → t.mapping? id = m.mapping? id

namespace Passed

theorem zero (h : m.frames.hand < max 1 m.frames.size) : Passed m 0 m := by
  refine ⟨?_, rfl, rfl, fun j hj => absurd hj (Nat.not_lt_zero j), fun _ _ => rfl⟩
  have : (m.frames.hand + 0) % m.frames.size = m.frames.hand := by
    rcases Nat.eq_zero_or_pos m.frames.size with hz | hpos
    · rw [hz, Nat.mod_zero, Nat.add_zero]
    · exact Nat.mod_eq_of_lt (by omega)
  rw [this]

theorem sitting? (h : Passed m i t) : t.sitting? = m.sitting? := by
  funext f
  simp only [Machine.sitting?, tenant?, h.frames, h.page]
  rfl

theorem hand (h : Passed m i t) : (⟨t.frames.hand⟩ : FrameId) = m.ahead i := by
  rw [h.frames, ahead]

theorem size (h : Passed m i t) : t.frames.size = m.frames.size := by
  rw [h.frames]
  rfl

theorem hand_lt (h : Passed m i t) (hpos : 0 < m.frames.size) :
    t.frames.hand < t.frames.size := by
  rw [h.size, h.frames]
  exact Nat.mod_lt _ hpos

theorem cold (h : Passed m i t) {j : Nat} (hj : j < i) (hid : m.sitting? (m.ahead j) = some id) :
    t.hasFlag id .accessed = false := by
  change (t.mapping? id).any (fun e => e.has .accessed) = false
  rw [h.cooled j hj id hid]
  cases m.mapping? id with
  | none => rfl
  | some e =>
      change (e.set .accessed false).has .accessed = false
      rw [Entry.has_set, if_pos rfl]

theorem hasFlag_eq (h : Passed m i t) (hid : ∀ j < i, m.sitting? (m.ahead j) ≠ some id) :
    t.hasFlag id .accessed = m.hasFlag id .accessed := by
  change (t.mapping? id).any _ = (m.mapping? id).any _
  rw [h.kept id hid]

theorem advance (h : Passed m i t) : t.frames.advance =
    { m.frames with hand := (m.frames.hand + (i + 1)) % m.frames.size } := by
  have : (t.frames.hand + 1) % t.frames.size = (m.frames.hand + (i + 1)) % m.frames.size := by
    rw [h.size, h.frames]
    exact Nat.mod_add_mod ..
  rw [FrameTable.advance, this, h.frames]

/-- The hand passes over one more frame. If a page is in it that page is hot, so
that it is none of those that the hand has passed already. -/
theorem succ (h : Passed m i t) (hn : ¬t.Stops (m.ahead i)) :
    Passed m (i + 1) t.pass := by
  rw [pass, h.hand, h.sitting?]
  cases hsit : m.sitting? (m.ahead i) with
  | none =>
      refine ⟨h.advance, congrArg (onFrames FrameTable.advance) h.rest, h.page, ?_, ?_⟩
      · intro j hj id hid
        have hne : j ≠ i := by
          rintro rfl
          rw [hsit] at hid
          cases hid
        exact h.cooled j (by omega) id hid
      · exact fun id hid => h.kept id fun j hj => hid j (by omega)
  | some id =>
      have hmap (o : PageId) :
          ((t.onFrames FrameTable.advance).setFlag id .accessed false).mapping? o =
            if id = o then (t.mapping? id).map (fun e => e.set .accessed false)
            else t.mapping? o :=
        mapping?_setFlag ..
      -- had the hand come by the page already, the page would be cold
      have hfirst : ∀ j < i, m.sitting? (m.ahead j) ≠ some id := by
        intro j hj hid
        obtain ⟨fr, hfr, hpin, -⟩ := exists_of_sitting? ((congrFun h.sitting? _).trans hsit)
        refine hn ⟨⟨fr, hfr, hpin⟩, fun o ho => ?_⟩
        obtain rfl : id = o := Option.some.inj (hsit.symm.trans (h.sitting? ▸ ho))
        exact h.cold hj hid
      refine ⟨h.advance,
        congrArg (fun t => setFlag id .accessed false (onFrames FrameTable.advance t)) h.rest,
        (funext fun o => page?_setTable ..).trans h.page, ?_, ?_⟩
      · intro j hj o hid
        rw [hmap]
        split
        next heq =>
          subst heq
          rw [h.kept id hfirst]
        next hne =>
          refine h.cooled j ?_ o hid
          have : j ≠ i := by
            rintro rfl
            exact hne (Option.some.inj (hsit.symm.trans hid))
          omega
      · intro o hid
        rw [hmap, if_neg]
        · exact h.kept o fun j hj => hid j (by omega)
        · rintro rfl
          exact hid i (by omega) hsit

theorem stops_iff (h : Passed m i t)
    (hf : ∀ id, m.sitting? f = some id → ∀ j < i, m.sitting? (m.ahead j) ≠ some id) :
    t.Stops f ↔ m.Stops f := by
  rw [Stops, Stops, h.sitting?, h.frames]
  refine and_congr Iff.rfl (forall_congr' fun id => imp_congr_right fun hid => ?_)
  rw [h.hasFlag_eq (hf id hid)]

theorem turnHand (h : Passed m i t) (n : Nat) :
    ∃ k u, Passed m k u ∧ (t.turnHand n = (none, u) ∨
      u.Stops (m.ahead k) ∧ t.turnHand n = (some (m.ahead k), u.onFrames FrameTable.advance)) := by
  induction n generalizing i t with
  | zero => exact ⟨i, t, h, .inl rfl⟩
  | succ n ih =>
      by_cases hstop : t.Stops (m.ahead i)
      · refine ⟨i, t, h, .inr ⟨hstop, ?_⟩⟩
        rw [← h.hand] at hstop ⊢
        exact turnHand_stop hstop
      · rcases Nat.eq_zero_or_pos m.frames.size with hz | hpos
        · have hnone : t.frames.get? ⟨t.frames.hand⟩ = none :=
            FrameTable.get?_eq_none_of_size_le (by rw [h.size, hz]; exact Nat.zero_le _)
          refine ⟨i, t, h, .inl ?_⟩
          simp only [Machine.turnHand, hnone]
        · rw [turnHand_pass (h.hand_lt hpos) (by rwa [h.hand])]
          exact ih (h.succ hstop)

/-- The hand stops at a frame that is not pinned when it comes there a second
time, if not before. -/
theorem turnHand_ne_none (h : Passed m i t) {k : Nat} (hfr : m.frames.get? (m.ahead k) = some fr)
    (hpin : fr.pinned = false) (hi : i ≤ k + m.frames.size) (hn : k + m.frames.size < i + n) :
    (t.turnHand n).1 ≠ none := by
  have hpos : 0 < m.frames.size := by
    obtain ⟨hlt, -⟩ := Array.getElem?_eq_some_iff.mp hfr
    exact Nat.zero_lt_of_lt hlt
  induction n generalizing i t with
  | zero => omega
  | succ n ih =>
      by_cases hstop : t.Stops ⟨t.frames.hand⟩
      · rw [turnHand_stop hstop]
        exact Option.some_ne_none _
      · have hne : i ≠ k + m.frames.size := by
          rintro rfl
          have hround : m.ahead (k + m.frames.size) = m.ahead k := by
            rw [ahead, ← Nat.add_assoc, Nat.add_mod_right, ahead]
          refine hstop ⟨⟨fr, ?_, hpin⟩, fun id hid => h.cold (j := k) (by omega) ?_⟩
          · rw [h.hand, hround, h.frames]
            exact hfr
          · rwa [h.hand, hround, h.sitting?] at hid
        rw [turnHand_pass (h.hand_lt hpos) hstop]
        rw [h.hand] at hstop
        exact ih (h.succ hstop) (by omega) (by omega)

end Passed

theorem ahead_inj {j : Nat} (hj : j < m.frames.size) (hi : i < m.frames.size)
    (h : m.ahead j = m.ahead i) : j = i := by
  have hmod : j ≡ i [MOD m.frames.size] :=
    Nat.ModEq.add_left_cancel' m.frames.hand (congrArg FrameId.index h)
  rwa [Nat.ModEq, Nat.mod_eq_of_lt hj, Nat.mod_eq_of_lt hi] at hmod

theorem exists_ahead (hlt : m.frames.hand < m.frames.size) (hf : f.index < m.frames.size) :
    ∃ i < m.frames.size, m.ahead i = f := by
  refine ⟨(f.index + (m.frames.size - m.frames.hand)) % m.frames.size,
    Nat.mod_lt _ (Nat.zero_lt_of_lt hlt), ?_⟩
  rw [ahead, Nat.add_mod_mod, show m.frames.hand + (f.index + (m.frames.size - m.frames.hand)) =
    f.index + m.frames.size by omega, Nat.add_mod_right, Nat.mod_eq_of_lt hf]

/-- The first frame from the hand on, in its first round, that the hand does not
pass over. -/
structure First (m : Machine) (i : Nat) : Prop where
  lt : i < m.frames.size
  stops : m.Stops (m.ahead i)
  passes : ∀ j < i, ¬m.Stops (m.ahead j)

theorem exists_first (hlt : m.frames.hand < m.frames.size) (h : m.Stops f) : ∃ i, m.First i := by
  classical
  obtain ⟨fr, hfr, -⟩ := h.1
  obtain ⟨hf, -⟩ := Array.getElem?_eq_some_iff.mp hfr
  obtain ⟨k, hk, rfl⟩ := exists_ahead hlt hf
  have hex : ∃ i, m.Stops (m.ahead i) := ⟨k, h⟩
  exact ⟨Nat.find hex, (Nat.find_min' hex h).trans_lt hk, Nat.find_spec hex,
    fun j hj => Nat.find_min hex hj⟩

theorem exists_passed (hlt : m.frames.hand < m.frames.size) {k : Nat}
    (hn : ∀ j < k, ∀ t, Passed m j t → ¬t.Stops (m.ahead j)) :
    ∃ t, Passed m k t ∧ ∀ n, m.turnHand (k + n) = t.turnHand n := by
  induction k with
  | zero =>
      refine ⟨m, .zero (lt_of_lt_of_le hlt (le_max_right _ _)), fun n => ?_⟩
      rw [Nat.zero_add]
  | succ k ih =>
      obtain ⟨t, ht, hturn⟩ := ih fun j hj => hn j (by omega)
      have hstop : ¬t.Stops (m.ahead k) := hn k (Nat.lt_succ_self k) t ht
      refine ⟨t.pass, ht.succ hstop, fun n => ?_⟩
      rw [show k + 1 + n = k + (n + 1) by omega, hturn,
        turnHand_pass (ht.hand_lt (Nat.zero_lt_of_lt hlt)) (by rwa [ht.hand])]

theorem Passed.stops_ahead (h : Passed m i t) (hi : i < m.frames.size)
    (hinj : ∀ f g id, m.sitting? f = some id → m.sitting? g = some id → f = g) :
    t.Stops (m.ahead i) ↔ m.Stops (m.ahead i) :=
  h.stops_iff fun id hid _ hj hid' =>
    absurd (ahead_inj (hj.trans hi) hi (hinj _ _ id hid' hid)) hj.ne

/-- The hand stops at the first frame that it finds to stop at, in the state that
it was started in. -/
theorem First.turnHand (h : m.First i) (hlt : m.frames.hand < m.frames.size)
    (hinj : ∀ f g id, m.sitting? f = some id → m.sitting? g = some id → f = g) :
    ∃ t, Passed m i t ∧ ∀ n,
      m.turnHand (i + n + 1) = (some (m.ahead i), t.onFrames FrameTable.advance) := by
  obtain ⟨t, ht, hturn⟩ := exists_passed hlt fun j hj u hu => by
    rw [hu.stops_ahead (hj.trans h.lt) hinj]
    exact h.passes j hj
  have hstop : t.Stops ⟨t.frames.hand⟩ := by
    rw [ht.hand, ht.stops_ahead h.lt hinj]
    exact h.stops
  exact ⟨t, ht, fun n => by rw [Nat.add_assoc, hturn, turnHand_stop hstop, ht.hand]⟩

theorem hand_lt_size (hs : m.layout.Sound) (h : 0 < m.frames.size) :
    m.frames.hand < m.frames.size := by
  have : m.frames.hand < max 1 m.frames.size := hs.hand_lt
  omega

theorem sitting?_eq_owner? (hs : m.layout.Sound) (hu : m.layout.Unpinned) (f : FrameId) :
    m.sitting? f = m.layout.owner? f := by
  rw [sitting?]
  cases hfr : m.frames.get? f with
  | none =>
      have : m.layout.owner? f = (m.frames.get? f).bind Frame.owner := rfl
      rw [this, hfr, Option.bind_none, Option.bind_none]
  | some fr =>
      have hpin : fr.pinned = false := by
        by_contra hp
        exact hu f ⟨fr, hfr, by simpa using hp⟩
      rw [Option.bind_some, hpin, if_neg Bool.false_ne_true, tenant?_eq_owner? hs hfr]

theorem sitting?_inj (hs : m.layout.Sound) (hu : m.layout.Unpinned) {f g : FrameId}
    (hf : m.sitting? f = some id) (hg : m.sitting? g = some id) : f = g := by
  rw [sitting?_eq_owner? hs hu, hs.owners] at hf hg
  exact Option.some.inj (hf.symm.trans hg)

theorem pickVictim_ends (hs : m.layout.Sound) (hu : m.layout.Unpinned) :
    Ends pickVictim m
      (fun f t => ∃ i u, Passed m i u ∧ f = m.ahead i ∧ u.Stops f ∧
        t = u.onFrames FrameTable.advance)
      (fun e t => e = .panic .outOfFrames ∧ m.frames.size = 0 ∧ t = m.emit (.noVictim 0)) := by
  have hpass := Passed.zero hs.hand_lt
  simp only [pickVictim, ends_bind, ends_modifyGet, chooseVictim]
  rcases Nat.eq_zero_or_pos m.frames.size with hz | hpos
  · have hturn : m.turnHand (2 * m.frames.size) = (none, m) := by
      rw [hz]
      rfl
    rw [hturn]
    simp only [ends_bind, ends_get, ends_note, ends_halt]
    exact ⟨trivial, hz, by rw [hz]⟩
  · obtain ⟨i, u, hiu, hturn | ⟨hstop, hturn⟩⟩ := hpass.turnHand (2 * m.frames.size)
    · have hlt : (m.ahead 0).index < m.frames.size := Nat.mod_lt _ hpos
      have hfr := Array.getElem?_eq_getElem hlt
      have hpin : (m.frames.frames[(m.ahead 0).index]).pinned = false := by
        by_contra hp
        exact hu _ ⟨_, hfr, by simpa using hp⟩
      refine absurd ?_ (hpass.turnHand_ne_none hfr hpin (Nat.zero_le _) (n := 2 * m.frames.size)
        (by omega))
      rw [hturn]
    · rw [hturn]
      exact ⟨i, u, hiu, rfl, hstop, rfl⟩

end Pager.Machine
