import Pager.Proofs.Runs

namespace Pager

open Step

namespace Layout

variable {s : SpaceId} {a sp : VirtAddr}

inductive Writes (s : SpaceId) (a sp : VirtAddr) :
    Nat → List UInt8 → List (Piece × World) → Option Failure → Layout → Layout → Prop
  | done {k : Nat} {l : Layout} : Writes s a sp k [] [] none l l
  | overflow {k : Nat} {data : List UInt8} {l : Layout} (hd : data ≠ [])
      (ha : a.add? k = none) : Writes s a sp k data [] (some (.panic .addOverflow)) l l
  | stops {k : Nat} {data : List UInt8} {e : Failure} {l l' : Layout} {cur : VirtAddr}
      {cs : List Change} (hd : data ≠ []) (ha : a.add? k = some cur) (he : l.Expects e)
      (hb : l.Balks s cur sp cs) (hw : l.UnpinnedCourse cs l') :
      Writes s a sp k data [] (some e) l l'
  | piece {k n : Nat} {data : List UInt8} {ps : List (Piece × World)} {e : Option Failure}
      {l l₁ l' : Layout} {cur : VirtAddr} {cs : List Change} (hd : data ≠ [])
      (ha : a.add? k = some cur) (hn : n = Machine.inPage cur data.length)
      (ho : l.Opens s cur sp l₁.world cs)
      (hw : l.UnpinnedCourse (cs ++ [.store ⟨s, cur.page⟩ cur.offset (data.take n)]) l₁)
      (ht : Writes s a sp (k + n) (data.drop n) ps e l₁ l') :
      Writes s a sp k data ((⟨⟨s, cur.page⟩, cur.offset, data.take n⟩, l₁.world) :: ps) e l l'

inductive Reads (s : SpaceId) (a sp : VirtAddr) :
    Nat → Nat → List World → List UInt8 → Option Failure → Layout → Layout → Prop
  | done {k : Nat} {l : Layout} : Reads s a sp k 0 [] [] none l l
  | overflow {k len : Nat} {l : Layout} (hd : len ≠ 0) (ha : a.add? k = none) :
      Reads s a sp k len [] [] (some (.panic .addOverflow)) l l
  | stops {k len : Nat} {e : Failure} {l l' : Layout} {cur : VirtAddr} {cs : List Change}
      (hd : len ≠ 0) (ha : a.add? k = some cur) (he : l.Expects e) (hb : l.Balks s cur sp cs)
      (hw : l.UnpinnedCourse cs l') : Reads s a sp k len [] [] (some e) l l'
  | piece {k n len : Nat} {ws : List World} {bs : List UInt8} {e : Option Failure}
      {l l₁ l' : Layout} {cur : VirtAddr} {cs : List Change} {page : Page} {f : FrameId}
      {p : PhysPage} (hd : len ≠ 0) (ha : a.add? k = some cur) (hn : n = Machine.inPage cur len)
      (ho : l.Opens s cur sp l₁.world cs) (hw : l.UnpinnedCourse cs l₁)
      (hin : l₁.InFrame ⟨s, cur.page⟩ page f p)
      (ht : Reads s a sp (k + n) (len - n) ws bs e l₁ l') :
      Reads s a sp k len (l₁.world :: ws) (Bytes.slice (l₁.bytes p) cur.offset n ++ bs) e l l'

theorem Writes.unpinnedCourse {k : Nat} {data : List UInt8} {ps : List (Piece × World)}
    {e : Option Failure}
    {l l' : Layout} (h : Writes s a sp k data ps e l l') (hu : l.Unpinned) :
    ∃ cs, l.UnpinnedCourse cs l' ∧ ∀ f, e = some f →
      l.Expects f ∨ f = .panic .addOverflow ∧ wordBound ≤ a.toNat + (k + data.length) := by
  induction h with
  | done => exact ⟨[], .refl hu, by simp⟩
  | overflow _ ha =>
      have hk := VirtAddr.add?_eq_none.mp ha
      exact ⟨[], .refl hu, by rintro _ ⟨⟩; exact .inr ⟨rfl, by omega⟩⟩
  | stops _ _ he _ hw => exact ⟨_, hw, by rintro _ ⟨⟩; exact .inl he⟩
  | @piece k n data ps e l l₁ l' cur cs hd ha hn ho hw ht ih =>
      obtain ⟨ds, hds, he⟩ := ih hw.unpinned
      refine ⟨_, hw.trans hds, fun f hf => ?_⟩
      have hle : n ≤ data.length := hn ▸ Machine.inPage_le cur data.length
      rcases he f hf with he | ⟨hp, hlt⟩
      · exact .inl (he.congr (capacity_of_course hw.course))
      · rw [List.length_drop] at hlt
        exact .inr ⟨hp, by omega⟩

theorem Reads.unpinnedCourse {k len : Nat} {ws : List World} {bs : List UInt8} {e : Option Failure}
    {l l' : Layout} (h : Reads s a sp k len ws bs e l l') (hu : l.Unpinned) :
    ∃ cs, l.UnpinnedCourse cs l' ∧ ∀ f, e = some f →
      l.Expects f ∨ f = .panic .addOverflow ∧ wordBound ≤ a.toNat + (k + len) := by
  induction h with
  | done => exact ⟨[], .refl hu, by simp⟩
  | overflow _ ha =>
      have hk := VirtAddr.add?_eq_none.mp ha
      exact ⟨[], .refl hu, by rintro _ ⟨⟩; exact .inr ⟨rfl, by omega⟩⟩
  | stops _ _ he _ hw => exact ⟨_, hw, by rintro _ ⟨⟩; exact .inl he⟩
  | @piece k n len ws bs e l l₁ l' cur cs page f p hd ha hn ho hw hin ht ih =>
      obtain ⟨ds, hds, he⟩ := ih hw.unpinned
      refine ⟨_, hw.trans hds, fun f hf => ?_⟩
      have hle : n ≤ len := hn ▸ Machine.inPage_le cur len
      rcases he f hf with he | ⟨hp, hlt⟩
      · exact .inl (he.congr (capacity_of_course hw.course))
      · exact .inr ⟨hp, by omega⟩

end Layout

namespace Machine

variable {m : Machine} {s : SpaceId} {a sp : VirtAddr}

theorem writeFrom_writes (hs : m.layout.Sound) (hu : m.layout.Unpinned) (k : Nat)
    (data : List UInt8) :
    Ends (writeFrom s a sp k data) m
      (fun _ t => Layout.Writes s a sp k data (writeTrail s a sp k data m) none m.layout t.layout)
      (fun e t =>
        Layout.Writes s a sp k data (writeTrail s a sp k data m) (some e) m.layout t.layout) := by
  fun_induction writeTrail s a sp k data m with
  | case1 => rw [writeFrom, dif_pos rfl]; exact .done
  | case2 k data m hd ha =>
      rw [writeFrom, dif_neg hd, ha]
      exact .overflow hd ha
  | case3 k data m hd cur ha e t hx =>
      rw [writeFrom, dif_neg hd, ha, ends_bind, ends_of_error hx]
      obtain ⟨he, cs, hb, hw⟩ := (writePiece_ends hs hu _).of_error hx
      exact .stops hd ha he hb hw
  | case4 k data m hd cur ha u t hx ih =>
      rw [writeFrom, dif_neg hd, ha, ends_bind, ends_of_ok hx]
      obtain ⟨cs, ho, hw⟩ := (writePiece_ends hs hu _).of_ok hx
      apply (ih (hs.of_course hw.course) hw.unpinned).mono
      · exact fun _ t' h => .piece hd ha rfl ho hw h
      · exact fun e t' h => .piece hd ha rfl ho hw h

theorem readFrom_reads (hs : m.layout.Sound) (hu : m.layout.Unpinned) (k len : Nat)
    (acc : List UInt8) :
    Ends (readFrom s a sp k len) (m, acc)
      (fun _ t => ∃ bs, t.2 = acc ++ bs ∧
        Layout.Reads s a sp k len (readTrail s a sp k len m) bs none m.layout t.1.layout)
      (fun e t => ∃ bs, t.2 = acc ++ bs ∧
        Layout.Reads s a sp k len (readTrail s a sp k len m) bs (some e) m.layout t.1.layout) := by
  fun_induction readTrail s a sp k len m generalizing acc with
  | case1 => rw [readFrom, dif_pos rfl]; exact ⟨[], by simp, .done⟩
  | case2 k len m hd ha =>
      rw [readFrom, dif_neg hd, ha]
      exact ⟨[], by simp, .overflow hd ha⟩
  | case3 k len m hd cur ha e t hx =>
      rw [readFrom, dif_neg hd, ha, ends_bind, ends_zoom, ends_of_error hx]
      obtain ⟨he, cs, hb, hw⟩ := (readPiece_ends hs hu _).of_error hx
      exact ⟨[], by simp, .stops hd ha he hb hw⟩
  | case4 k len m hd cur ha bs t hx ih =>
      rw [readFrom, dif_neg hd, ha, ends_bind, ends_zoom, ends_of_ok hx, ends_bind, ends_modify]
      obtain ⟨cs, ho, hw, page, f, p, hin, rfl⟩ := (readPiece_ends hs hu _).of_ok hx
      apply (ih (hs.of_course hw.course) hw.unpinned _).mono
      · intro _ t' h
        obtain ⟨ds, hds, h⟩ := h
        exact ⟨_, by rw [hds, List.append_assoc], .piece hd ha rfl ho hw hin h⟩
      · intro e t' h
        obtain ⟨ds, hds, h⟩ := h
        exact ⟨_, by rw [hds, List.append_assoc], .piece hd ha rfl ho hw hin h⟩

theorem perform_ends {α : Type} {x : Step Machine α} {Q : Report → Machine → Prop}
    (h : Ends x m (fun _ t => Q { worlds := [t.world] } t)
      (fun e t => Q { failure := some e, worlds := [t.world] } t)) :
    Q (perform x m).1 (perform x m).2 := by
  unfold Ends at h
  unfold perform
  split at h <;> simp_all only

theorem exists_ok_of_perform {α : Type} {x : Step Machine α}
    (h : (perform x m).1.failure = none) : ∃ a, x m = .ok a (perform x m).2 := by
  unfold perform at h ⊢
  cases hx : x m with
  | ok a t => exact ⟨a, rfl⟩
  | error e t => simp [hx] at h

theorem exists_error_of_perform {α : Type} {x : Step Machine α} {e : Failure}
    (h : (perform x m).1.failure = some e) : ∃ t, x m = .error e t := by
  unfold perform at h
  cases hx : x m with
  | ok a t => simp [hx] at h
  | error e' t =>
      simp only [hx, Option.some.injEq] at h
      exact ⟨t, by rw [h]⟩

theorem page?_eq_none_of_keys (h : (m.pages s).keys = []) (v : VirtPage) :
    m.page? ⟨s, v⟩ = none := by
  have hnot : v ∉ (m.pages s).keys := by simp [h]
  rw [PageMap.mem_keys] at hnot
  have hno := Option.isSome_eq_false_iff.mp (Bool.eq_false_of_not_eq_true hnot)
  exact Option.isNone_iff_eq_none.mp hno

theorem performWrite_ends (hs : m.layout.Sound) (hu : m.layout.Unpinned) (data : List UInt8)
    {Q : Report → Machine → Prop}
    (h : ∀ e t, Layout.Writes s a sp 0 data (writeTrail s a sp 0 data m) e m.layout t.layout →
      Q ⟨e, [], (writeTrail s a sp 0 data m).map Prod.fst,
        (writeTrail s a sp 0 data m).map Prod.snd⟩ t) :
    Q (performWrite s a data sp m).1 (performWrite s a data sp m).2 := by
  have hw : Ends (writeFrom s a sp 0 data) m _ _ := writeFrom_writes hs hu 0 data
  unfold performWrite perform writeUser
  cases hx : writeFrom s a sp 0 data m with
  | ok u t => exact h none t (hw.of_ok hx)
  | error e t => exact h (some e) t (hw.of_error hx)

theorem performRead_ends (hs : m.layout.Sound) (hu : m.layout.Unpinned) (len : Nat)
    {Q : Report → Machine → Prop}
    (h : ∀ e bs t, Layout.Reads s a sp 0 len (readTrail s a sp 0 len m) bs e m.layout t.layout →
      Q ⟨e, bs, [], readTrail s a sp 0 len m⟩ t) :
    Q (performRead s a len sp m).1 (performRead s a len sp m).2 := by
  have hr : Ends (readFrom s a sp 0 len) (m, []) _ _ := readFrom_reads hs hu 0 len []
  unfold performRead readUser
  cases hx : readFrom s a sp 0 len (m, []) with
  | ok u t =>
      obtain ⟨bs, hbs, h'⟩ := hr.of_ok hx
      rw [List.nil_append] at hbs
      rw [← hbs] at h'
      exact h none t.2 t.1 h'
  | error e t =>
      obtain ⟨bs, hbs, h'⟩ := hr.of_error hx
      rw [List.nil_append] at hbs
      rw [← hbs] at h'
      exact h (some e) t.2 t.1 h'

theorem nodup_of_perm_keys {order : List VirtPage} (h : order.Perm (m.pages s).keys) :
    order.Nodup :=
  h.nodup_iff.mpr Std.ExtTreeMap.nodup_keys

end Machine

namespace Op

variable {m : Machine} {s : SpaceId} {a sp : VirtAddr}

theorem mem_order {order : List VirtPage} (h : order.Perm (m.pages s).keys) (v : VirtPage) :
    v ∈ order ↔ m.layout.page ⟨s, v⟩ ≠ none := by
  rw [h.mem_iff, PageMap.mem_keys]
  exact Option.isSome_iff_ne_none

/-- What an operation is asked for beyond the addresses there are. -/
def Overflows (c : Config) : Op → Failure → Prop
  | read _ a len _, e => e = .panic .addOverflow ∧ wordBound ≤ a.toNat + len
  | write _ a data _, e => e = .panic .addOverflow ∧ wordBound ≤ a.toNat + data.length
  | setUpStack _, e => e = .panic .subOverflow ∧ c.stackTop.toNat < pageSize
  | _, _ => False

/-- An operation goes through changes and fails in no way but those foreseen. -/
def Goes (m : Machine) (op : Op) (r : Report) (t : Machine) : Prop :=
  ∃ cs, m.layout.UnpinnedCourse cs t.layout ∧
    ∀ e, r.failure = some e → m.layout.Expects e ∨ op.Overflows m.config e

def GoesThrough (m : Machine) (op : Op) {α : Type} (x : Step Machine α) : Prop :=
  Ends x m (fun _ t => ∃ cs, m.layout.UnpinnedCourse cs t.layout)
    (fun e t => (m.layout.Expects e ∨ op.Overflows m.config e) ∧
      ∃ cs, m.layout.UnpinnedCourse cs t.layout)

theorem GoesThrough.goes {α : Type} {op : Op} {x : Step Machine α} (h : GoesThrough m op x) :
    Goes m op (Machine.perform x m).1 (Machine.perform x m).2 := by
  refine Machine.perform_ends (h.mono ?_ ?_)
  · intro _ t h
    obtain ⟨cs, hw⟩ := h
    exact ⟨cs, hw, by simp⟩
  · intro e t h
    obtain ⟨he, cs, hw⟩ := h
    exact ⟨cs, hw, by rintro _ ⟨⟩; exact he⟩

theorem layout_armDisk (m : Machine) (reads writes : Trap) :
    (m.withSwap { m.swap with
      disk := m.swap.disk.map
        (fun d => { d with readTrap := reads, writeTrap := writes }) }).layout =
      m.layout := by
  rw [Machine.layout_withSwap]
  have hstored : Swap.stored { m.swap with
      disk := m.swap.disk.map (fun d => { d with readTrap := reads, writeTrap := writes }) } =
      m.swap.stored := by
    funext s
    apply Swap.stored_congr
    intro i _
    cases hd : m.swap.disk <;> simp [Swap.sectorAt, hd]
  rw [hstored]
  rfl

theorem goes_fork {parent child : SpaceId} {refusals : Trap} {order : List VirtPage}
    (hs : m.layout.Sound) (hu : m.layout.Unpinned)
    (ha : (fork parent child refusals order).Admissible m) :
    GoesThrough m (.fork parent child refusals order)
      (Machine.forkInOrder parent child refusals order) := by
  obtain ⟨hne, hv, ho⟩ := ha
  apply (Machine.forkInOrder_ends hs hu hne (Machine.nodup_of_perm_keys ho) hv refusals).mono
  · intro _ t h
    obtain ⟨cs, h⟩ := h
    exact ⟨cs, h.course⟩
  · intro e t h
    obtain ⟨he, cs, h⟩ := h
    exact ⟨.inl he, cs, h.course⟩

theorem goes_copyFrom {src dst : SpaceId} {order : List VirtPage} (hs : m.layout.Sound)
    (hu : m.layout.Unpinned) (ha : (copyFrom src dst order).Admissible m) :
    GoesThrough m (.copyFrom src dst order) (Machine.copyInOrder src dst order) := by
  obtain ⟨hne, ho⟩ := ha
  apply (Machine.copyInOrder_ends hs hu hne (Machine.nodup_of_perm_keys ho)).mono
  · intro _ t h
    obtain ⟨cs, h⟩ := h
    exact ⟨cs, h.course⟩
  · intro e t h
    obtain ⟨he, cs, h⟩ := h
    exact ⟨.inl he, cs, h.course⟩

theorem goes_alloc {type : PageType} {writable : Bool} {loader : Option Loader}
    (hu : m.layout.Unpinned) :
    GoesThrough m (.alloc s type a writable loader)
      (Machine.alloc s type a writable loader) := by
  apply Machine.alloc_ends.mono
  · intro _ t h
    obtain ⟨kind, -, hd⟩ := h
    exact ⟨_, .single hd, hd.of_register.2.2.2 hu⟩
  · intro e t h
    obtain ⟨⟨k, rfl⟩, ht⟩ := h
    exact ⟨.inl trivial, [], .of_eq hu ht⟩

theorem goes_claim (hs : m.layout.Sound) (hu : m.layout.Unpinned) :
    GoesThrough m (.claim s a) (Machine.claim s a) := by
  apply (Machine.claim_ends hs hu).mono
  · intro _ t h
    obtain ⟨page, cs, -, hc, hut⟩ := h
    exact ⟨cs, hc.course, hut⟩
  · intro e t h
    obtain ⟨he, h⟩ := h
    exact ⟨.inl he, [], h.unpinnedCourse⟩

theorem goes_fault {flags : FaultFlags} (hs : m.layout.Sound) (hu : m.layout.Unpinned) :
    GoesThrough m (.fault s a flags sp) (Machine.handleFault s a flags sp) := by
  apply (Machine.handleFault_ends hs hu).mono
  · intro _ t h
    obtain ⟨-, cs, -, hw, -⟩ := h
    exact ⟨cs, hw⟩
  · intro e t h
    obtain ⟨he, cs, -, hw⟩ := h
    exact ⟨.inl he, cs, hw⟩

theorem goes_setUpStack (hs : m.layout.Sound) (hu : m.layout.Unpinned) :
    GoesThrough m (.setUpStack s) (Machine.setUpStack s) := by
  apply (Machine.setUpStack_ends hs hu).mono
  · intro _ t h
    obtain ⟨a, l, cs, -, hd, hc, hut⟩ := h
    exact ⟨_, (Layout.Course.single hd).append hc.course, hut⟩
  · intro e t h
    obtain ⟨he, hw | ⟨a, -, -, hw⟩⟩ := h
    · exact ⟨he, [], hw⟩
    · exact ⟨he, _, hw⟩

theorem goes_mmap {len offset : Nat} {writable : Bool} {file : FileId} (hu : m.layout.Unpinned) :
    GoesThrough m (.mmap s a len writable file offset)
      (Machine.mmap s a len writable file offset) := by
  apply (Machine.mmap_ends hu).mono
  · intro r t h
    obtain ⟨-, -, hw⟩ := h
    exact ⟨_, hw⟩
  · intro e t h
    obtain ⟨⟨k, rfl⟩, ht⟩ := h
    exact ⟨.inl trivial, [], .of_eq hu ht⟩

theorem goes_mmapDescriptor {len fd offset : Nat} {writable : Bool} {fds : Descriptors}
    (hu : m.layout.Unpinned) :
    GoesThrough m (.mmapDescriptor s a len writable fd fds offset)
      (Machine.mmapDescriptor s a len writable fd fds offset) := by
  apply (Machine.mmapDescriptor_ends hu).mono
  · intro r t h
    obtain ⟨file, -, -, -, hw⟩ := h
    exact ⟨_, hw⟩
  · intro e t h
    obtain ⟨⟨k, rfl⟩, ht⟩ := h
    exact ⟨.inl trivial, [], .of_eq hu ht⟩

theorem goes_munmap (hs : m.layout.Sound) (hu : m.layout.Unpinned) :
    GoesThrough m (.munmap s a) (Machine.munmap s a) := by
  refine (Machine.munmap_ends hs hu).mono ?_ fun _ _ h => h.elim
  intro _ t h
  obtain ⟨vs, cs, -, -, hw, -⟩ := h
  exact ⟨cs, hw⟩

theorem goes_run (hs : m.layout.Sound) (hu : m.layout.Unpinned) {op : Op} (ha : op.Admissible m) :
    Goes m op (op.run m).1 (op.run m).2 := by
  have hsame {t : Machine} (ht : t.layout = m.layout) :
      ∃ cs, m.layout.UnpinnedCourse cs t.layout := ⟨[], .of_eq hu ht⟩
  cases op with
  | create s t => exact GoesThrough.goes (hsame (Machine.layout_create hs ha t))
  | refuse s t => exact GoesThrough.goes (hsame (Machine.layout_setSpace_same m rfl rfl))
  | armDisk reads writes => exact GoesThrough.goes (hsame (layout_armDisk m reads writes))
  | armFile file => exact GoesThrough.goes (hsame (Machine.layout_withFile_same m rfl))
  | drop s order =>
      exact GoesThrough.goes ((Machine.dropInOrder_ends hs hu ha).mono
        (fun _ t ⟨cs, _, hw, _⟩ => ⟨cs, hw⟩) fun _ _ h => h.elim)
  | kill s order =>
      exact GoesThrough.goes ((Machine.killInOrder_ends hs hu ha).mono
        (fun _ t ⟨cs, _, hw, _⟩ => ⟨cs, hw⟩) fun _ _ h => h.elim)
  | fork => exact (goes_fork hs hu ha).goes
  | copyFrom => exact (goes_copyFrom hs hu ha).goes
  | alloc => exact (goes_alloc hu).goes
  | claim => exact (goes_claim hs hu).goes
  | fault => exact (goes_fault hs hu).goes
  | setUpStack => exact (goes_setUpStack hs hu).goes
  | read s a len sp =>
      refine Machine.performRead_ends hs hu len fun e bs t h => ?_
      have hw := h.unpinnedCourse hu
      rwa [Nat.zero_add] at hw
  | write s a data sp =>
      refine Machine.performWrite_ends hs hu data fun e t h => ?_
      have hw := h.unpinnedCourse hu
      rwa [Nat.zero_add] at hw
  | mmap => exact (goes_mmap hu).goes
  | mmapDescriptor => exact (goes_mmapDescriptor hu).goes
  | munmap => exact (goes_munmap hs hu).goes
  | remove s a =>
      exact GoesThrough.goes ((Machine.removePage_ends hs hu).mono
        (fun _ t ⟨cs, _, hw, _⟩ => ⟨cs, hw⟩) fun _ _ h => h.elim)

theorem config_run (hs : m.layout.Sound) (hu : m.layout.Unpinned) {op : Op}
    (ha : op.Admissible m) : (op.run m).2.config = m.config := by
  obtain ⟨cs, hw, -⟩ := goes_run hs hu ha
  exact Layout.config_of_course hw.course

theorem capacity_run (hs : m.layout.Sound) (hu : m.layout.Unpinned) {op : Op}
    (ha : op.Admissible m) : (op.run m).2.layout.capacity = m.layout.capacity := by
  obtain ⟨cs, hw, -⟩ := goes_run hs hu ha
  exact Layout.capacity_of_course hw.course

end Op

namespace Machine

variable {m m₀ : Machine} {config : Config} {n : Nat} {disk : Option Disk} {files : List File}

theorem page_boot (config : Config) (ram : Ram) (disk : Option Disk) (files : List File)
    (id : PageId) : (boot config ram disk files).layout.page id = none := by
  change ((({} : Store Space).get id.space).pages).get? id.page = none
  rw [Store.get_empty]
  exact Std.ExtTreeMap.getElem?_empty

theorem entry_boot (config : Config) (ram : Ram) (disk : Option Disk) (files : List File)
    (id : PageId) : (boot config ram disk files).layout.entry id = none := by
  change ((({} : Store Space).get id.space).table).get? id.page = none
  rw [Store.get_empty]
  exact Std.ExtTreeMap.getElem?_empty

theorem slots_boot (hd : ∀ d, disk = some d → d.count < wordBound) :
    (disk.map Disk.count).getD 0 / sectorsPerPage * sectorsPerPage < wordBound := by
  apply lt_of_le_of_lt (Nat.div_mul_le_self _ _)
  cases disk with
  | none => decide
  | some d => exact hd d rfl

theorem sound_boot (hn : Ram.firstPage + n ≤ Entry.pageBound)
    (hd : ∀ d, disk = some d → d.count < wordBound) :
    (boot config (.ofCapacity n) disk files).layout.Sound where
  pages id page hp := by
    rw [page_boot] at hp
    cases hp
  owners f id := by
    have ho : (boot config (.ofCapacity n) disk files).layout.owner? f = none := rfl
    simp [ho, Layout.home?, page_boot]
  entries id e he := by
    rw [entry_boot] at he
    cases he
  memory := by
    change ([] ++ (List.range n).map (fun i => PhysPage.ofNat (Ram.firstPage + i))).Perm
      (Ram.all (Array.replicate n (Bytes.zero pageSize)).size)
    rw [Array.size_replicate]
    exact .refl _
  capacity_le := by
    change Ram.firstPage + (Array.replicate n (Bytes.zero pageSize)).size ≤ _
    rw [Array.size_replicate]
    exact hn
  hand_lt := by
    change 0 < max 1 0
    decide
  bitmap := Swap.Bitmap.exact_empty _
  slots_lt := slots_boot hd
  slots := by
    refine ⟨fun s => ?_, fun i _ s hi => ?_⟩
    · change (Swap.Bitmap.empty _).test s.index = true ↔ _
      simp [Swap.Bitmap.test_empty, Layout.slot?, page_boot]
    · simp [Layout.slot?, page_boot] at hi

theorem unpinned_boot : (boot config (.ofCapacity n) disk files).layout.Unpinned := by
  intro f h
  obtain ⟨fr, hf, -⟩ := h
  simp [layout, boot, emit, FrameTable.get?] at hf

end Machine

theorem Starts.sound {m : Machine} (h : Starts m) : m.layout.Sound ∧ m.layout.Unpinned := by
  obtain ⟨config, n, disk, files, hn, hd, rfl⟩ := h
  exact ⟨Machine.sound_boot hn hd, Machine.unpinned_boot⟩

/-- A run keeps the invariants, whatever fails in it. -/
theorem Runs.sound {m₀ m : Machine} {trail : List (Op × Report)} (h : Runs m₀ trail m)
    (hs : m₀.layout.Sound) (hu : m₀.layout.Unpinned) : m.layout.Sound ∧ m.layout.Unpinned := by
  induction h with
  | nil m => exact ⟨hs, hu⟩
  | cons ha _ ih =>
      obtain ⟨cs, hw, -⟩ := Op.goes_run hs hu ha
      exact ih (hs.of_course hw.course) hw.unpinned

/-- A run fails in no way but those foreseen at its start. -/
theorem Runs.failures {m₀ m : Machine} {trail : List (Op × Report)} (h : Runs m₀ trail m)
    (hs : m₀.layout.Sound) (hu : m₀.layout.Unpinned) :
    ∀ x ∈ trail, ∀ e, x.2.failure = some e →
      m₀.layout.Expects e ∨ x.1.Overflows m₀.config e := by
  induction h with
  | nil m => simp
  | cons ha _ ih =>
      obtain ⟨cs, hw, he⟩ := Op.goes_run hs hu ha
      rintro x (_ | ⟨_, hx⟩)
      · exact he
      · intro e hf
        rw [← Op.config_run hs hu ha]
        rcases ih (hs.of_course hw.course) hw.unpinned x hx e hf with h | h
        · exact .inl (h.congr (Op.capacity_run hs hu ha))
        · exact .inr h

/-- The failures that a program can bring about. All other panics would be
mistakes of the system. -/
def Failure.Expected : Failure → Prop
  | .errno _ => True
  | .panic q => q = .outOfFrames ∨ q = .addOverflow ∨ q = .subOverflow

theorem Layout.Expects.expected {l : Layout} {e : Failure} (h : l.Expects e) : e.Expected := by
  cases e with
  | errno k => trivial
  | panic q => exact .inl h.1

theorem Op.Overflows.expected {c : Config} {op : Op} {e : Failure} (h : op.Overflows c e) :
    e.Expected := by
  cases op with
  | read | write =>
      rw [h.1]
      exact .inr (.inl rfl)
  | setUpStack =>
      rw [h.1]
      exact .inr (.inr rfl)
  | _ => exact h.elim

theorem Runs.expected {m₀ m : Machine} {trail : List (Op × Report)} (h : Runs m₀ trail m)
    (hs : m₀.layout.Sound) (hu : m₀.layout.Unpinned) :
    ∀ x ∈ trail, ∀ e, x.2.failure = some e → e.Expected :=
  fun x hx e hf => (h.failures hs hu x hx e hf).elim (fun h => h.expected) fun h => h.expected

theorem Reachable.sound {m : Machine} (h : Reachable m) : m.layout.Sound ∧ m.layout.Unpinned := by
  obtain ⟨m₀, trail, h₀, hr⟩ := h
  exact hr.sound h₀.sound.1 h₀.sound.2

end Pager
