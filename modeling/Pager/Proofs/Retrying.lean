import Pager.Proofs.Invariance

namespace Pager

open Step

namespace Machine

variable {m t u : Machine} {s : SpaceId} {a sp : VirtAddr} {write : Bool} {id : PageId}
  {p : PhysPage} {len done : Nat}

/-- What the hardware finds at an address: the page to access, or a fault. -/
def lookUp (m : Machine) (s : SpaceId) (a : VirtAddr) (write : Bool) : Except FaultFlags PhysPage :=
  match (m.table s).translate a.page with
  | none => .error (faultFlags false write)
  | some p =>
      if !write || m.hasFlag ⟨s, a.page⟩ .writable then .ok p else .error (faultFlags true write)

/-- A call of the fault handler: how it failed, if it did, and what it left. -/
structure Call where
  failure : Option Failure
  after : Machine

/-- The calls that an access made for one of its addresses. -/
structure Visit where
  addr : VirtAddr
  calls : List Call

/-- Looks the page up again after each fault that was handled. Nothing bounds how
often this may be. -/
inductive Retries (s : SpaceId) (a sp : VirtAddr) (write : Bool) :
    Machine → List Call → Except Failure PhysPage → Machine → Prop
  | found {m : Machine} {p : PhysPage} (h : m.lookUp s a write = .ok p) :
      Retries s a sp write m [] (.ok p) (m.mark ⟨s, a.page⟩ write)
  | refused {m t : Machine} {flags : FaultFlags} {e : Failure}
      (h : m.lookUp s a write = .error flags) (hx : handleFault s a flags sp m = .error e t) :
      Retries s a sp write m [⟨some e, t⟩] (.error e) t
  | again {m t u : Machine} {flags : FaultFlags} {calls : List Call} {r : Except Failure PhysPage}
      (h : m.lookUp s a write = .error flags) (hx : handleFault s a flags sp m = .ok () t)
      (hr : Retries s a sp write t calls r u) : Retries s a sp write m (⟨none, t⟩ :: calls) r u

/-- Goes through `len` bytes from `a` on page by page, of which `done` are done.
`copy` is what happens to the bytes of a page once it was found; what it returns
are bytes that were read. -/
inductive Accesses (s : SpaceId) (a sp : VirtAddr) (write : Bool) (len : Nat)
    (copy : Nat → VirtAddr → PhysPage → Step Machine (List UInt8)) :
    Nat → Machine → List Visit → Option Failure → List UInt8 → Machine → Prop
  | whole {done : Nat} {m : Machine} (h : len ≤ done) :
      Accesses s a sp write len copy done m [] none [] m
  | overflow {done : Nat} {m : Machine} (h : done < len) (ha : a.add? done = none) :
      Accesses s a sp write len copy done m [] (some (.panic .addOverflow)) [] m
  | refused {done : Nat} {m t : Machine} {cur : VirtAddr} {calls : List Call} {e : Failure}
      (h : done < len) (ha : a.add? done = some cur)
      (hr : Retries s cur sp write m calls (.error e) t) :
      Accesses s a sp write len copy done m [⟨cur, calls⟩] (some e) [] t
  | broken {done : Nat} {m t u : Machine} {cur : VirtAddr} {calls : List Call} {p : PhysPage}
      {e : Failure} (h : done < len) (ha : a.add? done = some cur)
      (hr : Retries s cur sp write m calls (.ok p) t) (hc : copy done cur p t = .error e u) :
      Accesses s a sp write len copy done m [⟨cur, calls⟩] (some e) [] u
  | piece {done : Nat} {m t u v : Machine} {cur : VirtAddr} {calls : List Call} {p : PhysPage}
      {bs rest : List UInt8} {visits : List Visit} {o : Option Failure}
      (h : done < len) (ha : a.add? done = some cur)
      (hr : Retries s cur sp write m calls (.ok p) t) (hc : copy done cur p t = .ok bs u)
      (hrest : Accesses s a sp write len copy (done + inPage cur (len - done)) u visits o rest v) :
      Accesses s a sp write len copy done m (⟨cur, calls⟩ :: visits) o (bs ++ rest) v

def storeAt (a : VirtAddr) (bs : List UInt8) (p : PhysPage) : Step Machine Unit := do
  let b ← readFrame p
  writeFrame p (Bytes.splice b a.offset bs)

def fetchAt (a : VirtAddr) (n : Nat) (p : PhysPage) : Step Machine (List UInt8) := do
  let b ← readFrame p
  pure (Bytes.slice b a.offset n)

def copyIn (data : List UInt8) (done : Nat) (cur : VirtAddr) (p : PhysPage) :
    Step Machine (List UInt8) := do
  storeAt cur ((data.drop done).take (inPage cur (data.length - done))) p
  pure []

def copyOut (len done : Nat) (cur : VirtAddr) (p : PhysPage) : Step Machine (List UInt8) :=
  fetchAt cur (inPage cur (len - done)) p

theorem Retries.functional {calls calls' : List Call} {r r' : Except Failure PhysPage}
    (h : Retries s a sp write m calls r t) (h' : Retries s a sp write m calls' r' u) :
    calls = calls' ∧ r = r' ∧ t = u := by
  induction h generalizing calls' with
  | found h => cases h' <;> simp_all
  | refused h hx => cases h' <;> simp_all
  | again h hx hr ih =>
      cases h' with
      | found h' | refused h' => simp_all
      | again h' hx' hr' =>
          obtain rfl := Except.error.inj (h.symm.trans h')
          obtain ⟨-, rfl⟩ := EStateM.Result.ok.inj (hx.symm.trans hx')
          obtain ⟨rfl, rfl, rfl⟩ := ih hr'
          exact ⟨rfl, rfl, rfl⟩

theorem Accesses.functional {copy : Nat → VirtAddr → PhysPage → Step Machine (List UInt8)}
    {visits visits' : List Visit} {o o' : Option Failure} {bs bs' : List UInt8}
    (h : Accesses s a sp write len copy done m visits o bs t)
    (h' : Accesses s a sp write len copy done m visits' o' bs' u) :
    visits = visits' ∧ o = o' ∧ bs = bs' ∧ t = u := by
  induction h generalizing visits' bs' with
  | whole h => cases h' <;> first | exact ⟨rfl, rfl, rfl, rfl⟩ | omega
  | overflow h ha =>
      cases h' with
      | whole h' => omega
      | overflow => exact ⟨rfl, rfl, rfl, rfl⟩
      | refused h' ha' | broken h' ha' | piece h' ha' => simp_all
  | refused h ha hr | broken h ha hr =>
      cases h' with
      | whole h' => omega
      | overflow h' ha' => simp_all
      | refused h' ha' hr' | broken h' ha' hr' | piece h' ha' hr' =>
          obtain rfl := Option.some.inj (ha.symm.trans ha')
          obtain ⟨rfl, hf, rfl⟩ := hr.functional hr'
          simp_all
  | piece h ha hr hc hrest ih =>
      cases h' with
      | whole h' => omega
      | overflow h' ha' => simp_all
      | refused h' ha' hr' | broken h' ha' hr' =>
          obtain rfl := Option.some.inj (ha.symm.trans ha')
          obtain ⟨rfl, hf, rfl⟩ := hr.functional hr'
          simp_all
      | piece h' ha' hr' hc' hrest' =>
          obtain rfl := Option.some.inj (ha.symm.trans ha')
          obtain ⟨rfl, hf, rfl⟩ := hr.functional hr'
          obtain rfl := Except.ok.inj hf
          obtain ⟨rfl, rfl⟩ := EStateM.Result.ok.inj (hc.symm.trans hc')
          obtain ⟨rfl, rfl, rfl, rfl⟩ := ih hrest'
          exact ⟨rfl, rfl, rfl, rfl⟩

def Usable (m : Machine) (id : PageId) (write : Bool) : Prop :=
  ∃ page f p, m.layout.InFrame id page f p ∧ (m.table id.space).translate id.page = some p ∧
    (write = true → m.hasFlag id .writable = true)

/-- One fault at most was handled, after which the page could be accessed. -/
structure Once (s : SpaceId) (write : Bool) (v : Visit) : Prop where
  length_le : v.calls.length ≤ 1
  usable : ∀ c ∈ v.calls, c.failure = none → c.after.Usable ⟨s, v.addr.page⟩ write

theorem usable_of_mapped {page : Page} {f : FrameId} (h : m.layout.Mapped id page f p)
    (hw : write = true → page.writable = true) : m.Usable id write := by
  obtain ⟨hin, e, he, hp, hwe⟩ := h
  refine ⟨page, f, p, hin, ?_, fun hwrite => ?_⟩
  · rw [translate_eq, he, Option.map_some, hp]
  · rw [hasFlag_layout, he, Option.any_some, hwe, hw hwrite]

theorem ends_touch {n : Nat} {Q : PhysPage → Machine → Prop} {E : Failure → Machine → Prop} :
    Ends (touch s a write sp (n + 1)) m Q E ↔
      match m.lookUp s a write with
      | .ok p => Q p (m.mark ⟨s, a.page⟩ write)
      | .error flags =>
          Ends (handleFault s a flags sp) m (fun _ t => Ends (touch s a write sp n) t Q E) E := by
  rw [touch, lookUp]
  simp only [ends_bind, ends_get]
  cases (m.table s).translate a.page with
  | none => simp only [ends_bind]
  | some p =>
      dsimp only
      split
      · simp only [ends_bind, ends_modify, ends_pure]
      · simp only [ends_bind]

theorem lookUp_eq_error {flags : FaultFlags} (h : m.lookUp s a write = .error flags)
    (hp : flags.contains .notPresent = true) : flags = faultFlags false write := by
  unfold lookUp at h
  split at h
  · exact (Except.error.inj h).symm
  · split at h
    · cases h
    · obtain rfl := Except.error.inj h
      cases write <;> cases hp

theorem lookUp_of_usable (h : m.Usable ⟨s, a.page⟩ write) : ∃ p, m.lookUp s a write = .ok p := by
  obtain ⟨page, f, p, -, hp, hw⟩ := h
  refine ⟨p, ?_⟩
  simp only [lookUp, hp]
  cases write with
  | false => rfl
  | true => rw [hw rfl]; rfl

theorem touch_retries (hs : m.layout.Sound) (hu : m.layout.Unpinned) :
    Ends (touch s a write sp retries) m
      (fun p t => ∃ calls, Retries s a sp write m calls (.ok p) t ∧ Once s write ⟨a, calls⟩)
      (fun e t => ∃ calls, Retries s a sp write m calls (.error e) t ∧
        Once s write ⟨a, calls⟩) := by
  rw [retries, ends_touch]
  cases hl : m.lookUp s a write with
  | ok p => exact ⟨[], .found hl, Nat.zero_le _, by rintro c ⟨⟩⟩
  | error flags =>
      refine ((handleFault_ends hs hu).and (ends_self _ m)).mono ?_ ?_
      · rintro _ t ⟨⟨hpres, -, -, -, page, f, p, hmap, hwr⟩, hx⟩
        have hw : write = true → page.writable = true := by
          rintro rfl
          exact hwr (by rw [lookUp_eq_error hl hpres]; rfl)
        have husable : t.Usable ⟨s, a.page⟩ write := usable_of_mapped hmap hw
        obtain ⟨q, hq⟩ := lookUp_of_usable husable
        rw [ends_touch, hq]
        refine ⟨_, .again hl hx (.found hq), le_rfl, ?_⟩
        simpa using husable
      · rintro e t ⟨-, hx⟩
        exact ⟨_, .refused hl hx, le_rfl, by simp⟩

theorem visit_ends {α : Type} (copy : PhysPage → Step Machine α) (hs : m.layout.Sound)
    (hu : m.layout.Unpinned) {Q : α → Machine → Prop} {E : Failure → Machine → Prop}
    (h : Ends (touch s a write sp retries >>= copy) m Q E) :
    Ends (touch s a write sp retries >>= copy) m
      (fun x t => Q x t ∧ ∃ calls p u, Retries s a sp write m calls (.ok p) u ∧
        copy p u = .ok x t ∧ Once s write ⟨a, calls⟩)
      (fun e t => ∃ calls, (Retries s a sp write m calls (.error e) t ∨
        ∃ p u, Retries s a sp write m calls (.ok p) u ∧ copy p u = .error e t) ∧
        Once s write ⟨a, calls⟩) := by
  rw [ends_bind] at h ⊢
  refine (h.and (touch_retries hs hu)).mono ?_ ?_
  · rintro p u ⟨hcopy, calls, hr, honce⟩
    refine (hcopy.and (ends_self _ u)).mono ?_ ?_
    · rintro x t ⟨hq, hx⟩
      exact ⟨hq, calls, p, u, hr, hx, honce⟩
    · rintro e t ⟨-, hx⟩
      exact ⟨calls, .inr ⟨p, u, hr, hx⟩, honce⟩
  · rintro e t ⟨-, calls, hr, honce⟩
    exact ⟨calls, .inl hr, honce⟩

theorem writeFrom_accesses (hs : m.layout.Sound) (hu : m.layout.Unpinned) (data : List UInt8)
    (done : Nat) :
    Ends (writeFrom s a sp done (data.drop done)) m
      (fun _ t => ∃ visits,
        Accesses s a sp true data.length (copyIn data) done m visits none [] t ∧
          ∀ v ∈ visits, Once s true v)
      (fun e t => ∃ visits,
        Accesses s a sp true data.length (copyIn data) done m visits (some e) [] t ∧
          ∀ v ∈ visits, Once s true v) := by
  induction hn : data.length - done using Nat.strong_induction_on generalizing done m with
  | _ n ih =>
  subst hn
  rcases Nat.lt_or_ge done data.length with hlt | hge
  · have hlen : (data.drop done).length = data.length - done := List.length_drop
    have hne : data.drop done ≠ [] := List.ne_nil_of_length_pos (by omega)
    rw [writeFrom, dif_neg hne]
    cases ha : a.add? done with
    | none => exact ⟨[], .overflow hlt ha, by rintro v ⟨⟩⟩
    | some cur =>
        have hpos : 0 < inPage cur (data.length - done) := inPage_pos cur (by omega)
        rw [ends_bind]
        refine (visit_ends (storeAt cur _) hs hu (writePiece_ends hs hu _)).mono ?_ ?_
        · rintro _ t ⟨⟨cs, -, hw⟩, calls, p, u, hr, hx, honce⟩
          have hcopy : copyIn data done cur p u = .ok [] t := by
            rw [copyIn, ← hlen]
            change (EStateM.bind _ _) u = _
            rw [EStateM.bind, hx]
            rfl
          rw [List.drop_drop, hlen]
          refine (ih _ (by omega) (hs.of_course hw.course) hw.unpinned _ rfl).mono ?_ ?_
          · rintro _ v ⟨visits, hv, hall⟩
            exact ⟨_, .piece hlt ha hr hcopy hv, List.forall_mem_cons.mpr ⟨honce, hall⟩⟩
          · rintro e v ⟨visits, hv, hall⟩
            exact ⟨_, .piece hlt ha hr hcopy hv, List.forall_mem_cons.mpr ⟨honce, hall⟩⟩
        · rintro e t ⟨calls, hr | ⟨p, u, hr, hx⟩, honce⟩
          · exact ⟨_, .refused hlt ha hr, by simpa using honce⟩
          · have hcopy : copyIn data done cur p u = .error e t := by
              rw [copyIn, ← hlen]
              change (EStateM.bind _ _) u = _
              rw [EStateM.bind, hx]
            exact ⟨_, .broken hlt ha hr hcopy, by simpa using honce⟩
  · rw [List.drop_eq_nil_of_le hge, writeFrom, dif_pos rfl]
    exact ⟨[], .whole hge, by rintro v ⟨⟩⟩

theorem readFrom_accesses (hs : m.layout.Sound) (hu : m.layout.Unpinned) (len done : Nat)
    (acc : List UInt8) :
    Ends (readFrom s a sp done (len - done)) (m, acc)
      (fun _ t => ∃ visits bs, t.2 = acc ++ bs ∧
        Accesses s a sp false len (copyOut len) done m visits none bs t.1 ∧
          ∀ v ∈ visits, Once s false v)
      (fun e t => ∃ visits bs, t.2 = acc ++ bs ∧
        Accesses s a sp false len (copyOut len) done m visits (some e) bs t.1 ∧
          ∀ v ∈ visits, Once s false v) := by
  induction hn : len - done using Nat.strong_induction_on generalizing done m acc with
  | _ n ih =>
  subst hn
  rcases Nat.lt_or_ge done len with hlt | hge
  · have hne : len - done ≠ 0 := by omega
    rw [readFrom, dif_neg hne]
    cases ha : a.add? done with
    | none => exact ⟨[], [], by rw [List.append_nil], .overflow hlt ha, by rintro v ⟨⟩⟩
    | some cur =>
        have hpos := inPage_pos cur (Nat.pos_of_ne_zero hne)
        rw [ends_bind, ends_zoom]
        refine (visit_ends (fetchAt cur _) hs hu (readPiece_ends hs hu _)).mono ?_ ?_
        · rintro bs t ⟨⟨cs, -, hw, -⟩, calls, p, u, hr, hx, honce⟩
          rw [ends_bind, ends_modify, Nat.sub_sub]
          refine (ih _ (by omega) (hs.of_course hw.course) hw.unpinned _ (acc ++ bs) rfl).mono ?_ ?_
          · rintro _ v ⟨visits, rest, hv, hacc, hall⟩
            refine ⟨_, bs ++ rest, by rw [hv, List.append_assoc], .piece hlt ha hr hx hacc, ?_⟩
            exact List.forall_mem_cons.mpr ⟨honce, hall⟩
          · rintro e v ⟨visits, rest, hv, hacc, hall⟩
            refine ⟨_, bs ++ rest, by rw [hv, List.append_assoc], .piece hlt ha hr hx hacc, ?_⟩
            exact List.forall_mem_cons.mpr ⟨honce, hall⟩
        · rintro e t ⟨calls, hr | ⟨p, u, hr, hx⟩, honce⟩
          · exact ⟨_, [], by rw [List.append_nil], .refused hlt ha hr, by simpa using honce⟩
          · exact ⟨_, [], by rw [List.append_nil], .broken hlt ha hr hx, by simpa using honce⟩
  · rw [Nat.sub_eq_zero_of_le hge, readFrom, dif_pos rfl]
    exact ⟨[], [], by rw [List.append_nil], .whole hge, by rintro v ⟨⟩⟩

theorem toNat_page (a : VirtAddr) : a.page.toNat = a.toNat / pageSize := rfl

theorem Accesses.ascending {copy : Nat → VirtAddr → PhysPage → Step Machine (List UInt8)}
    {visits : List Visit} {o : Option Failure} {bs : List UInt8}
    (h : Accesses s a sp write len copy done m visits o bs t) :
    visits.Pairwise (fun v w => v.addr.page.toNat < w.addr.page.toNat) ∧
      ∀ v ∈ visits, (a.toNat + done) / pageSize ≤ v.addr.page.toNat := by
  induction h with
  | whole | overflow => exact ⟨.nil, by rintro v ⟨⟩⟩
  | refused h ha | broken h ha =>
      refine ⟨List.pairwise_singleton _ _, fun v hv => ?_⟩
      obtain rfl := List.mem_singleton.mp hv
      rw [toNat_page, VirtAddr.toNat_of_add? ha]
  | @piece done m t u v cur calls p bs rest visits o h ha hr hc hrest ih =>
      obtain ⟨hasc, hlow⟩ := ih
      have hcur := VirtAddr.toNat_of_add? ha
      refine ⟨.cons (fun w hw => ?_) hasc, List.forall_mem_cons.mpr ⟨?_, fun w hw => ?_⟩⟩
      · have hmore : done + inPage cur (len - done) < len := by
          cases hrest with
          | whole => cases hw
          | overflow h => exact h
          | refused h | broken h | piece h => exact h
        have hend : (a.toNat + (done + inPage cur (len - done))) / pageSize =
            cur.toNat / pageSize + 1 := by
          unfold inPage VirtAddr.offset pageSize at *
          omega
        have := hlow w hw
        rw [toNat_page cur]
        omega
      · rw [toNat_page, hcur]
      · refine le_trans (Nat.div_le_div_right ?_) (hlow w hw)
        omega

/-- The loop comes to an end, and this is the only one. -/
def Concludes (m : Machine) (s : SpaceId) (a sp : VirtAddr) (write : Bool) (len : Nat)
    (copy : Nat → VirtAddr → PhysPage → Step Machine (List UInt8)) (visits : List Visit)
    (r : Report × Machine) : Prop :=
  ∀ vs o bs t, Accesses s a sp write len copy 0 m vs o bs t ↔
    vs = visits ∧ o = r.1.failure ∧ bs = r.1.bytes ∧ t = r.2

theorem Accesses.concludes {copy : Nat → VirtAddr → PhysPage → Step Machine (List UInt8)}
    {visits : List Visit} {r : Report × Machine}
    (h : Accesses s a sp write len copy 0 m visits r.1.failure r.1.bytes r.2) :
    m.Concludes s a sp write len copy visits r := by
  refine fun vs o bs t => ⟨fun h' => h'.functional h, ?_⟩
  rintro ⟨rfl, rfl, rfl, rfl⟩
  exact h

/-- Each page is visited once, and has one fault at most. -/
structure Brief (s : SpaceId) (write : Bool) (visits : List Visit) : Prop where
  ascending : visits.Pairwise (fun v w => v.addr.page.toNat < w.addr.page.toNat)
  once : ∀ v ∈ visits, Once s write v

theorem write_concludes (hs : m.layout.Sound) (hu : m.layout.Unpinned) (data : List UInt8) :
    ∃ visits, m.Concludes s a sp true data.length (copyIn data) visits
      ((Op.write s a data sp).run m) ∧ Brief s true visits := by
  have h : Ends (writeFrom s a sp 0 (data.drop 0)) m _ _ := writeFrom_accesses hs hu data 0
  rw [List.drop_zero] at h
  change ∃ visits, m.Concludes s a sp true data.length (copyIn data) visits
    (performWrite s a data sp m) ∧ _
  rw [performWrite, perform, writeUser]
  cases hx : writeFrom s a sp 0 data m with
  | ok x t =>
      obtain ⟨visits, hv, hall⟩ := h.of_ok hx
      exact ⟨visits, Accesses.concludes hv, hv.ascending.1, hall⟩
  | error e t =>
      obtain ⟨visits, hv, hall⟩ := h.of_error hx
      exact ⟨visits, Accesses.concludes hv, hv.ascending.1, hall⟩

theorem read_concludes (hs : m.layout.Sound) (hu : m.layout.Unpinned) (len : Nat) :
    ∃ visits, m.Concludes s a sp false len (copyOut len) visits
      ((Op.read s a len sp).run m) ∧ Brief s false visits := by
  have h : Ends (readFrom s a sp 0 (len - 0)) (m, []) _ _ := readFrom_accesses hs hu len 0 []
  rw [Nat.sub_zero] at h
  change ∃ visits, m.Concludes s a sp false len (copyOut len) visits
    (performRead s a len sp m) ∧ _
  rw [performRead, readUser]
  cases hx : readFrom s a sp 0 len (m, []) with
  | ok x t =>
      obtain ⟨visits, bs, hbs, hv, hall⟩ := h.of_ok hx
      rw [List.nil_append] at hbs
      subst hbs
      exact ⟨visits, Accesses.concludes hv, hv.ascending.1, hall⟩
  | error e t =>
      obtain ⟨visits, bs, hbs, hv, hall⟩ := h.of_error hx
      rw [List.nil_append] at hbs
      subst hbs
      exact ⟨visits, Accesses.concludes hv, hv.ascending.1, hall⟩

end Machine

/-- The loop of an access ends, though nothing bounds it, and does what the
operation does. It calls the fault handler once at most for each page. -/
theorem Reachable.access_faults_once {m : Machine} (h : Reachable m) (s : SpaceId)
    (a sp : VirtAddr) :
    (∀ len, ∃ visits, m.Concludes s a sp false len (Machine.copyOut len) visits
        ((Op.read s a len sp).run m) ∧ Machine.Brief s false visits) ∧
      ∀ data, ∃ visits, m.Concludes s a sp true data.length (Machine.copyIn data) visits
        ((Op.write s a data sp).run m) ∧ Machine.Brief s true visits := by
  obtain ⟨hs, hu⟩ := h.sound
  exact ⟨Machine.read_concludes hs hu, Machine.write_concludes hs hu⟩

theorem access_faults_once_two_pages_one_frame :
    ∃ m, m = ((Op.alloc 0 .anon ⟨8192⟩ true none).run ((Op.alloc 0 .anon ⟨4096⟩ true none).run
        (.boot {} (.ofCapacity 1) (some (.ofCount 16)) [])).2).2 ∧
      ((Op.write 0 ⟨8190⟩ [1, 2, 3, 4] ⟨0⟩).run m).1.failure = none ∧
      (∀ len, ∃ visits, m.Concludes 0 ⟨8190⟩ ⟨0⟩ false len (Machine.copyOut len) visits
          ((Op.read 0 ⟨8190⟩ len ⟨0⟩).run m) ∧ Machine.Brief 0 false visits) ∧
        ∀ data, ∃ visits, m.Concludes 0 ⟨8190⟩ ⟨0⟩ true data.length (Machine.copyIn data) visits
          ((Op.write 0 ⟨8190⟩ data ⟨0⟩).run m) ∧ Machine.Brief 0 true visits := by
  have h₀ : Starts (.boot {} (.ofCapacity 1) (some (.ofCount 16)) []) :=
    ⟨{}, 1, some (.ofCount 16), [], by decide, by rintro d ⟨⟩; decide, rfl⟩
  have hr : Runs (.boot {} (.ofCapacity 1) (some (.ofCount 16)) [])
      [(.alloc 0 .anon ⟨4096⟩ true none, _), (.alloc 0 .anon ⟨8192⟩ true none, _)] _ :=
    .cons trivial (.cons trivial (.nil _))
  have h : Reachable ((Op.alloc 0 .anon ⟨8192⟩ true none).run
      ((Op.alloc 0 .anon ⟨4096⟩ true none).run
        (.boot {} (.ofCapacity 1) (some (.ofCount 16)) [])).2).2 := ⟨_, _, h₀, hr⟩
  generalize hm : ((Op.alloc 0 .anon ⟨8192⟩ true none).run ((Op.alloc 0 .anon ⟨4096⟩ true none).run
      (.boot {} (.ofCapacity 1) (some (.ofCount 16)) [])).2).2 = m at h
  have hok : ((Op.write 0 ⟨8190⟩ [1, 2, 3, 4] ⟨0⟩).run m).1.failure = none := by
    rw [← hm]
    decide +kernel
  exact ⟨m, rfl, hok, Reachable.access_faults_once h 0 ⟨8190⟩ ⟨0⟩⟩

end Pager
