import Pager.Proofs.Composing
import Pager.Proofs.Invisible
import Pager.Proofs.ReadOnly

namespace Pager

open Step

namespace VirtAddr

variable {a b c cur : VirtAddr} {k i n len : Nat}

theorem page_ne (h : a.toNat / pageSize < b.toNat / pageSize) : a.page ≠ b.page := by
  intro he
  rw [page, page, VirtPage.mk.injEq, ← UInt64.toNat_inj] at he
  exact absurd he (Nat.ne_of_lt h)

theorem page_ne_of_aligned (hb : a.add? n = some b) (hal : b.aligned = true)
    (hc : a.add? i = some c) (hi : i < n) : c.page ≠ b.page := by
  have hbn := toNat_of_add? hb
  have hcn := toNat_of_add? hc
  rw [aligned, beq_iff_eq] at hal
  apply page_ne
  unfold offset pageSize at *
  omega

theorem page_ne_of_inPage (ha : a.add? k = some cur) (hlt : Machine.inPage cur len < len)
    (hc : a.add? (k + Machine.inPage cur len + i) = some c) : cur.page ≠ c.page := by
  have hcur := toNat_of_add? ha
  have hcn := toNat_of_add? hc
  have hoff := cur.offset_lt
  apply page_ne
  unfold Machine.inPage offset pageSize at *
  omega

theorem add?_inPage_offset (ha : a.add? k = some cur) (hi : i < Machine.inPage cur len) :
    ∃ b : VirtAddr, a.add? (k + i) = some b ∧ b.page = cur.page ∧ b.offset = cur.offset + i := by
  obtain ⟨b, hb, hpage⟩ := add?_inPage ha hi
  have hsum : b.toNat = cur.toNat + i := by
    rw [toNat_of_add? hb, toNat_of_add? ha, Nat.add_assoc]
  have hoff := cur.offset_lt
  refine ⟨b, hb, hpage, (page_eq_of_offset hsum ?_).2⟩
  unfold Machine.inPage at hi
  omega

end VirtAddr

namespace Layout

variable {l l₁ l' : Layout} {s : SpaceId} {sp : VirtAddr} {id : PageId} {j : Nat}

structure Bypasses (l : Layout) (s : SpaceId) (sp : VirtAddr) (id : PageId) (l' : Layout) :
    Prop where
  reaches : l.Reaches s sp l'
  stays : Stays id l l'
  cell : l'.cell id = l.cell id

theorem Bypasses.refl (h : l.Unpinned) : l.Bypasses s sp id l := ⟨.refl h, .refl id l, rfl⟩

theorem Bypasses.trans (h : l.Bypasses s sp id l₁) (h' : l₁.Bypasses s sp id l') :
    l.Bypasses s sp id l' :=
  ⟨h.reaches.trans h'.reaches, h.stays.trans h'.stays, h'.cell.trans h.cell⟩

def putBytes (l : Layout) (p : PhysPage) (b : PageBytes) : Layout :=
  { l with bytes := Function.update l.bytes p b }

/-- A byte of private memory is what it was. -/
def KeepsByte (l : Layout) (id : PageId) (j : Nat) (l' : Layout) : Prop :=
  ∀ b, l.cell id = some (.bytes b) → ∃ b', l'.cell id = some (.bytes b') ∧ b'[j]? = b[j]?

theorem KeepsByte.of_cell (h : l'.cell id = l.cell id) : l.KeepsByte id j l' :=
  fun b hb => ⟨b, h.trans hb, rfl⟩

theorem KeepsByte.trans (h : l.KeepsByte id j l₁) (h' : l₁.KeepsByte id j l') :
    l.KeepsByte id j l' := by
  intro b hb
  obtain ⟨b₁, hb₁, he⟩ := h b hb
  obtain ⟨b', hb', he'⟩ := h' b₁ hb₁
  exact ⟨b', hb', he'.trans he⟩

theorem Opens.eq_nil {a : VirtAddr} {w : World} {cs : List Change} {b : PageBytes}
    (h : l.Opens s a sp w cs) (hb : l.cell ⟨s, a.page⟩ = some (.bytes b)) : cs = [] := by
  cases h with
  | there page cs hpage h =>
      cases h with
      | hidden => rfl
      | load loader span b' hc =>
          rw [cell_eq page hpage, hc] at hb
          cases hb
  | grown cs hpage =>
      rw [cell_eq_none.mpr hpage] at hb
      cases hb

end Layout

namespace Machine

variable {m t u v w : Machine} {s : SpaceId} {a b c sp cur : VirtAddr} {id : PageId}
  {page : Page} {p : PhysPage} {f : Failure} {k n len j : Nat} {bs data : List UInt8}

/-- The byte that a program finds at an address. -/
def byteAt? (m : Machine) (s : SpaceId) (a : VirtAddr) : Option UInt8 :=
  (m.shown? ⟨s, a.page⟩).bind (·[a.offset]?)

/-- A page of a file that is in no frame, so that it shows what the file has. -/
def FileOut (m : Machine) (id : PageId) : Prop :=
  ∃ q, m.page? id = some q ∧ q.type = .file ∧ q.resident = false

/-- Programs find these bytes from `a + k` on, except in pages of files that have
left their frames. -/
def ShowsBytes (m : Machine) (s : SpaceId) (a : VirtAddr) (k : Nat) (bs : List UInt8) : Prop :=
  ∀ i < bs.length, ∃ c, a.add? (k + i) = some c ∧
    (m.byteAt? s c = bs[i]? ∨ m.FileOut ⟨s, c.page⟩)

/-- Bytes have come into the frame of their page, and all else is as it was. -/
structure PieceStored (s : SpaceId) (a : VirtAddr) (bs : List UInt8) (p : PhysPage)
    (v w : Machine) : Prop where
  inFrame : ∃ page f, v.layout.InFrame ⟨s, a.page⟩ page f p ∧ page.writable = true
  stored : ∃ b, w.layout = v.layout.putBytes p b ∧ ∀ j, b[j]? =
    if a.offset ≤ j ∧ j < a.offset + bs.length then bs[j - a.offset]? else (v.layout.bytes p)[j]?

structure PieceRead (s : SpaceId) (a : VirtAddr) (bs : List UInt8) (p : PhysPage) (v : Machine) :
    Prop where
  inFrame : ∃ page f, v.layout.InFrame ⟨s, a.page⟩ page f p
  read : ∀ j < bs.length, bs[j]? = (v.layout.bytes p)[a.offset + j]?

/-- From one machine to the other, `data` comes to `a + k` and on, each piece into
the frame that its page has just then. -/
inductive StoresInFrames (s : SpaceId) (a sp : VirtAddr) :
    Nat → List UInt8 → Machine → Machine → Prop
  | done (k : Nat) (m : Machine) : StoresInFrames s a sp k [] m m
  | piece {k n : Nat} {data : List UInt8} {cur : VirtAddr} {p : PhysPage} {m v w u : Machine}
      (hd : data ≠ []) (ha : a.add? k = some cur) (hn : n = inPage cur data.length)
      (ht : touch s cur true sp retries m = .ok p v)
      (hp : PieceStored s cur (data.take n) p v w)
      (h : StoresInFrames s a sp (k + n) (data.drop n) w u) : StoresInFrames s a sp k data m u

/-- The same for bytes that are read. -/
inductive ReadsFromFrames (s : SpaceId) (a sp : VirtAddr) :
    Nat → List UInt8 → Machine → Machine → Prop
  | done (k : Nat) (m : Machine) : ReadsFromFrames s a sp k [] m m
  | piece {k n : Nat} {bs : List UInt8} {cur : VirtAddr} {p : PhysPage} {m v u : Machine}
      (hd : bs ≠ []) (ha : a.add? k = some cur) (hn : n = inPage cur bs.length)
      (ht : touch s cur false sp retries m = .ok p v) (hp : PieceRead s cur (bs.take n) p v)
      (h : ReadsFromFrames s a sp (k + n) (bs.drop n) v u) : ReadsFromFrames s a sp k bs m u

/-- What an access that got past `n` bytes and failed at the next one leaves as it
was: the pages that it did not get to, and the bytes of private memory but for
those that it stored. -/
structure KeepsRest (m : Machine) (s : SpaceId) (a : VirtAddr) (n stored : Nat) (t : Machine) :
    Prop where
  absent : ∀ id, m.page? id = none → (∀ i ≤ n, ∀ c, a.add? i = some c → id ≠ ⟨s, c.page⟩) →
    t.page? id = none
  pages : ∀ id page, m.page? id = some page →
    (∀ i ≤ n, ∀ c, a.add? i = some c → id ≠ ⟨s, c.page⟩) → m.Unwritten id page t
  bytes : ∀ id page j, m.page? id = some page → page.currentType = .anon →
    (∀ i < stored, ∀ c, a.add? i = some c → id = ⟨s, c.page⟩ → j ≠ c.offset) →
    (t.contents? id).bind (·[j]?) = (m.contents? id).bind (·[j]?)

theorem unwritten_of_bypasses (hs : m.layout.Sound) (hpage : m.page? id = some page)
    (h : m.layout.Bypasses s sp id t.layout) : m.Unwritten id page t := by
  obtain ⟨cs, hw, hg⟩ := h.reaches
  obtain ⟨q, hq, hcont⟩ := Layout.continues_of_course hs hw.course hg.lasting hpage
  have hseg : t.layout.segment? = m.layout.segment? :=
    Layout.segment?_of_course hw.course hg.lasts
  exact unwritten_of_stays hs (hs.of_course hw.course) hpage hq hcont (congrFun hseg id) h.stays
    h.cell

theorem PieceStored.exists_inFrame (h : PieceStored s a bs p v w) :
    ∃ page f, w.layout.InFrame ⟨s, a.page⟩ page f p := by
  obtain ⟨⟨page, f, hin, -⟩, b, hw, -⟩ := h
  rw [hw]
  exact ⟨page, f, hin⟩

theorem PieceStored.getElem? (h : PieceStored s a bs p v w) (hj : j < bs.length) :
    (w.layout.bytes p)[a.offset + j]? = bs[j]? := by
  obtain ⟨-, b, hw, hb⟩ := h
  have hbytes : w.layout.bytes p = b := by
    rw [hw]
    exact Function.update_self ..
  rw [hbytes, hb, if_pos (by omega), Nat.add_sub_cancel_left]

theorem byteAt?_inFrame {g : FrameId} (h : m.layout.InFrame ⟨s, a.page⟩ page g p) :
    m.byteAt? s a = (m.layout.bytes p)[a.offset]? := by
  rw [byteAt?, shown?, contents?_eq_held?, Layout.held?_inFrame h, Option.some_or,
    Option.bind_some]

theorem byteAt?_piece {g : FrameId} {i : Nat} (h : m.layout.InFrame ⟨s, cur.page⟩ page g p)
    (ha : a.add? k = some cur) (hi : i < inPage cur len) :
    ∃ c, a.add? (k + i) = some c ∧ c.page = cur.page ∧
      m.byteAt? s c = (m.layout.bytes p)[cur.offset + i]? := by
  obtain ⟨c, hc, hpage, hoff⟩ := VirtAddr.add?_inPage_offset ha hi
  rw [← hpage] at h
  exact ⟨c, hc, hpage, by rw [byteAt?_inFrame h, hoff]⟩

theorem touch_inFrame (hs : m.layout.Sound) (hu : m.layout.Unpinned) (write : Bool) :
    Ends (touch s a write sp retries) m
      (fun p v => Ram.InRange v.layout.capacity p ∧
        ∃ page f, v.layout.InFrame ⟨s, a.page⟩ page f p ∧ (write = true → page.writable = true))
      (fun _ _ => True) := by
  refine (touch_ends hs hu write 0).mono ?_ fun _ _ _ => trivial
  rintro p v ⟨cs, l, -, hw, page, f, hmap, hwr, hl⟩
  refine ⟨inRange_touched hs hw hmap hl, page, f, ?_, hwr⟩
  rw [hl]
  exact hmap.1

theorem writePiece_stored (hs : m.layout.Sound) (hu : m.layout.Unpinned)
    (hle : a.offset + bs.length ≤ pageSize) :
    Ends (writePiece s a sp bs) m
      (fun _ w => ∃ p v, touch s a true sp retries m = .ok p v ∧ PieceStored s a bs p v w)
      (fun _ _ => True) := by
  simp only [writePiece, ends_bind]
  refine ((touch_inFrame hs hu true).and (ends_self _ m)).mono ?_ fun _ _ _ => trivial
  rintro p v ⟨⟨hr, page, f, hin, hwr⟩, ht⟩
  rw [ends_readFrame hr, ends_writeFrame hr]
  refine ⟨p, v, ht, ⟨page, f, hin, hwr rfl⟩, Bytes.splice (v.ram.bytes p) a.offset bs,
    layout_store v hr _, fun j => ?_⟩
  rw [Bytes.getElem?_splice]
  by_cases hj : a.offset ≤ j ∧ j < a.offset + bs.length
  · rw [if_pos ⟨hj.1, hj.2, by omega⟩, if_pos hj]
  · rw [if_neg (by omega), if_neg hj]
    rfl

theorem readPiece_read (hs : m.layout.Sound) (hu : m.layout.Unpinned)
    (hle : a.offset + n ≤ pageSize) :
    Ends (readPiece s a sp n) m
      (fun bs v => bs.length = n ∧ ∃ p, touch s a false sp retries m = .ok p v ∧
        PieceRead s a bs p v)
      (fun _ _ => True) := by
  simp only [readPiece, ends_bind]
  refine ((touch_inFrame hs hu false).and (ends_self _ m)).mono ?_ fun _ _ _ => trivial
  rintro p v ⟨⟨hr, page, f, hin, -⟩, ht⟩
  rw [ends_readFrame hr, ends_pure]
  have hlen : (Bytes.slice (v.ram.bytes p) a.offset n).length = n := by
    rw [Bytes.length_slice]
    omega
  refine ⟨hlen, p, ht, ⟨page, f, hin⟩, fun j hj => ?_⟩
  rw [Bytes.getElem?_slice, if_pos (hlen ▸ hj)]
  rfl

theorem exists_page_of_byteAt? {x : UInt8} (h : m.byteAt? s a = some x) :
    ∃ page, m.page? ⟨s, a.page⟩ = some page := by
  rw [← Option.ne_none_iff_exists']
  intro hn
  rw [byteAt?, shown?, contents?, segment?, hn] at h
  cases h

theorem ShowsBytes.mono (sp : VirtAddr) (h : m.ShowsBytes s a k bs) (hs : m.layout.Sound)
    (hb : ∀ i < bs.length, ∀ c, a.add? (k + i) = some c →
      m.layout.Bypasses s sp ⟨s, c.page⟩ t.layout) : t.ShowsBytes s a k bs := by
  intro i hi
  obtain ⟨c, hc, hx⟩ := h i hi
  have hby := hb i hi c hc
  refine ⟨c, hc, ?_⟩
  rcases hx with hx | ⟨q, hq, hk, hr⟩
  · obtain ⟨page, hpage⟩ : ∃ page, m.page? ⟨s, c.page⟩ = some page := by
      rw [List.getElem?_eq_getElem hi] at hx
      exact exists_page_of_byteAt? hx
    have hun := unwritten_of_bypasses hs hpage hby
    rcases hun.shown with he | ⟨hk, q, hq, hr⟩
    · left
      rw [byteAt?, he]
      exact hx
    · obtain ⟨q', hq', hcont⟩ := hun.registered
      obtain rfl := Option.some.inj (hq.symm.trans hq')
      exact .inr ⟨q, hq, by rw [Page.type, hcont.kind]; exact hk, hr⟩
  · exact .inr ⟨q, (unwritten_of_bypasses hs hq hby).idle hr, hk, hr⟩

theorem ShowsBytes.append (h : m.ShowsBytes s a k (data.take n))
    (h' : m.ShowsBytes s a (k + n) (data.drop n)) (hn : n ≤ data.length) :
    m.ShowsBytes s a k data := by
  intro i hi
  by_cases hin : i < n
  · obtain ⟨c, hc, hx⟩ := h i (by rw [List.length_take]; omega)
    rw [List.getElem?_take_of_lt hin] at hx
    exact ⟨c, hc, hx⟩
  · obtain ⟨c, hc, hx⟩ := h' (i - n) (by rw [List.length_drop]; omega)
    rw [List.getElem?_drop, Nat.add_sub_cancel' (Nat.not_lt.mp hin)] at hx
    rw [show k + n + (i - n) = k + i by omega] at hc
    exact ⟨c, hc, hx⟩

theorem showsBytes_piece (hin : ∃ page f, m.layout.InFrame ⟨s, cur.page⟩ page f p)
    (ha : a.add? k = some cur) (hn : bs.length ≤ inPage cur len)
    (hb : ∀ j < bs.length, (m.layout.bytes p)[cur.offset + j]? = bs[j]?) :
    m.ShowsBytes s a k bs := by
  obtain ⟨page, f, hin⟩ := hin
  intro i hi
  obtain ⟨c, hc, -, hbyte⟩ := byteAt?_piece hin ha (Nat.lt_of_lt_of_le hi hn)
  exact ⟨c, hc, .inl (hbyte.trans (hb i hi))⟩

theorem touch_bypasses (hs : m.layout.Sound) (hu : m.layout.Unpinned) (hid : id ≠ ⟨s, a.page⟩)
    (write : Bool) :
    Ends (touch s a write sp retries) m (fun _ _ => True)
      (fun _ t => m.layout.Bypasses s sp id t.layout) := by
  refine ((touch_ends hs hu write 0).and (touch_stays hid write retries hs hu)).mono
    (fun _ _ _ => trivial) ?_
  rintro f t ⟨⟨-, cs, hb, hw⟩, hstay⟩
  exact ⟨⟨cs, hw, hb.grows⟩, hstay,
    Layout.cell_of_course_other hs hw.course fun c hc => by rwa [hb.target c hc]⟩

theorem writePiece_bypasses (hs : m.layout.Sound) (hu : m.layout.Unpinned)
    (hid : id ≠ ⟨s, a.page⟩) (bs : List UInt8) :
    Ends (writePiece s a sp bs) m (fun _ t => m.layout.Bypasses s sp id t.layout)
      (fun _ _ => True) := by
  refine ((writePiece_reaches hs hu bs).and ((writePiece_stays hs hu hid bs).and
    (writePiece_cell hs hu hid bs))).mono ?_ fun _ _ _ => trivial
  rintro _ t ⟨⟨hr, -⟩, hstay, hcell⟩
  exact ⟨hr, hstay, hcell⟩

theorem readPiece_bypasses (hs : m.layout.Sound) (hu : m.layout.Unpinned)
    (hid : id ≠ ⟨s, a.page⟩) (n : Nat) :
    Ends (readPiece s a sp n) m (fun _ t => m.layout.Bypasses s sp id t.layout)
      (fun _ _ => True) := by
  have hstay : Ends (readPiece s a sp n) m (fun _ t => Layout.Stays id m.layout t.layout)
      (fun _ _ => True) := by
    simp only [readPiece, ends_bind]
    refine ((touch_inFrame hs hu false).and (touch_stays hid false retries hs hu)).mono ?_
      fun _ _ _ => trivial
    rintro p v ⟨⟨hr, -⟩, hstay⟩
    rw [ends_readFrame hr, ends_pure]
    exact hstay
  refine ((readPiece_ends hs hu n).and hstay).mono ?_ fun _ _ _ => trivial
  rintro bs t ⟨⟨cs, ho, hw, -⟩, hstay⟩
  exact ⟨⟨cs, hw, ho.grows⟩, hstay,
    Layout.cell_of_course_other hs hw.course fun c hc => by rwa [ho.target c hc]⟩

theorem writeFrom_bypasses (hs : m.layout.Sound) (hu : m.layout.Unpinned) (k : Nat)
    (data : List UInt8)
    (hid : ∀ i < data.length, ∀ c, a.add? (k + i) = some c → id ≠ ⟨s, c.page⟩) :
    Ends (writeFrom s a sp k data) m (fun _ u => m.layout.Bypasses s sp id u.layout)
      (fun _ _ => True) := by
  induction k, data using writeFrom.induct a generalizing m with
  | case1 k =>
      rw [writeFrom_nil]
      exact .refl hu
  | case2 k data hd ha =>
      rw [writeFrom, dif_neg hd, ha]
      trivial
  | case3 k data hd cur ha ih =>
      have hne : id ≠ ⟨s, cur.page⟩ := hid 0 (List.length_pos_iff.mpr hd) cur ha
      rw [writeFrom_eq hd ha, ends_bind]
      refine ((writePiece_bypasses hs hu hne _).and (writePiece_stops hs hu _)).mono ?_
        fun _ _ _ => trivial
      rintro _ w ⟨hby, hs', hu'⟩
      refine (ih hs' hu' fun i hi c hc => ?_).mono (fun _ _ h => hby.trans h) fun _ _ h => h
      rw [List.length_drop] at hi
      exact hid (inPage cur data.length + i) (by omega) c (by rw [← Nat.add_assoc]; exact hc)

theorem readFrom_bypasses (hs : m.layout.Sound) (hu : m.layout.Unpinned) (k len : Nat)
    (acc : List UInt8) (hid : ∀ i < len, ∀ c, a.add? (k + i) = some c → id ≠ ⟨s, c.page⟩) :
    Ends (readFrom s a sp k len) (m, acc)
      (fun _ u => m.layout.Bypasses s sp id u.1.layout) (fun _ _ => True) := by
  induction k, len using readFrom.induct a generalizing m acc with
  | case1 k =>
      rw [readFrom_zero]
      exact .refl hu
  | case2 k len hd ha =>
      rw [readFrom, dif_neg hd, ha]
      trivial
  | case3 k len hd cur ha ih =>
      have hne : id ≠ ⟨s, cur.page⟩ := hid 0 (Nat.pos_of_ne_zero hd) cur ha
      rw [readFrom, dif_neg hd, ha, ends_bind, ends_zoom]
      refine ((readPiece_bypasses hs hu hne _).and (readPiece_ends hs hu _)).mono ?_
        fun _ _ _ => trivial
      rintro bs w ⟨hby, cs, -, hw, -⟩
      rw [ends_bind, ends_modify]
      refine (ih (hs.of_course hw.course) hw.unpinned _ fun i hi c hc => ?_).mono
        (fun _ _ h => hby.trans h) fun _ _ h => h
      exact hid (inPage cur len + i) (by omega) c (by rw [← Nat.add_assoc]; exact hc)

theorem add_offset_inPage_le (a : VirtAddr) (n : Nat) : a.offset + inPage a n ≤ pageSize := by
  have := a.offset_lt
  unfold inPage
  omega

theorem writeFrom_inFrames (hs : m.layout.Sound) (hu : m.layout.Unpinned) (k : Nat)
    (data : List UInt8) :
    Ends (writeFrom s a sp k data) m
      (fun _ u => m.layout.Reaches s sp u.layout ∧ StoresInFrames s a sp k data m u ∧
        u.ShowsBytes s a k data)
      (fun _ _ => True) := by
  induction k, data using writeFrom.induct a generalizing m with
  | case1 k =>
      rw [writeFrom_nil]
      exact ⟨.refl hu, .done k m, fun i hi => absurd hi (Nat.not_lt_zero i)⟩
  | case2 k data hd ha =>
      rw [writeFrom, dif_neg hd, ha]
      trivial
  | case3 k data hd cur ha ih =>
      have hle := inPage_le cur data.length
      have hlen : (data.take (inPage cur data.length)).length = inPage cur data.length :=
        List.length_take_of_le hle
      rw [writeFrom_eq hd ha, ends_bind]
      refine ((writePiece_stored hs hu (by rw [hlen]; exact add_offset_inPage_le ..)).and
        (writePiece_reaches hs hu _)).mono ?_ fun _ _ _ => trivial
      rintro _ w ⟨⟨p, v, ht, hp⟩, hr, -⟩
      obtain ⟨cs, hw, -⟩ := id hr
      have hs' := hs.of_course hw.course
      have hfirst : w.ShowsBytes s a k (data.take (inPage cur data.length)) :=
        showsBytes_piece hp.exists_inFrame ha hlen.le fun j hj => hp.getElem? hj
      refine ((ih hs' hw.unpinned).and (ends_self _ w)).mono ?_ fun _ _ _ => trivial
      rintro _ u ⟨⟨hr', hstores, hrest⟩, hx⟩
      refine ⟨hr.trans hr', .piece hd ha rfl ht hp hstores, .append (hfirst.mono sp hs' ?_)
        hrest hle⟩
      intro i hi c hc
      rw [hlen] at hi
      obtain ⟨c', hc', hpage⟩ := VirtAddr.add?_inPage ha hi
      obtain rfl := Option.some.inj (hc'.symm.trans hc)
      refine (writeFrom_bypasses hs' hw.unpinned _ _ fun i' hi' d hd' => ?_).of_ok hx
      rw [List.length_drop] at hi'
      rw [hpage, Ne, PageId.mk.injEq, not_and]
      exact fun _ => VirtAddr.page_ne_of_inPage ha (by omega) hd'

theorem readFrom_inFrames (hs : m.layout.Sound) (hu : m.layout.Unpinned) (k len : Nat)
    (acc : List UInt8) :
    Ends (readFrom s a sp k len) (m, acc)
      (fun _ u => ∃ bs, u.2 = acc ++ bs ∧ bs.length = len ∧ m.layout.Reaches s sp u.1.layout ∧
        ReadsFromFrames s a sp k bs m u.1 ∧ u.1.ShowsBytes s a k bs)
      (fun _ _ => True) := by
  induction k, len using readFrom.induct a generalizing m acc with
  | case1 k =>
      rw [readFrom_zero]
      exact ⟨[], by simp, rfl, .refl hu, .done k m, fun i hi => absurd hi (Nat.not_lt_zero i)⟩
  | case2 k len hd ha =>
      rw [readFrom, dif_neg hd, ha]
      trivial
  | case3 k len hd cur ha ih =>
      have hle := inPage_le cur len
      have hpos := inPage_pos cur (Nat.pos_of_ne_zero hd)
      rw [readFrom, dif_neg hd, ha, ends_bind, ends_zoom]
      refine ((readPiece_read hs hu (add_offset_inPage_le cur len)).and
        (readPiece_reaches hs hu _)).mono ?_ fun _ _ _ => trivial
      rintro bs w ⟨⟨hlen, p, ht, hp⟩, hr, -⟩
      obtain ⟨cs, hw, -⟩ := id hr
      have hs' := hs.of_course hw.course
      have hfirst : w.ShowsBytes s a k bs :=
        showsBytes_piece hp.inFrame ha hlen.le fun j hj => (hp.read j hj).symm
      rw [ends_bind, ends_modify]
      refine ((ih hs' hw.unpinned _).and (ends_self _ _)).mono ?_ fun _ _ _ => trivial
      rintro _ u ⟨⟨rest, hu2, hrest, hr', hreads, hshows⟩, hx⟩
      have htotal : (bs ++ rest).length = len := by
        rw [List.length_append, hlen, hrest]
        omega
      have htake : (bs ++ rest).take (inPage cur len) = bs := by
        rw [← hlen, List.take_left]
      have hdrop : (bs ++ rest).drop (inPage cur len) = rest := by
        rw [← hlen, List.drop_left]
      have hne : bs ++ rest ≠ [] := List.ne_nil_of_length_pos (by omega)
      refine ⟨bs ++ rest, by rw [hu2, List.append_assoc], htotal, hr.trans hr', ?_, ?_⟩
      · exact .piece hne ha (by rw [htotal]) ht (by rwa [htake]) (by rwa [hdrop])
      · refine .append (n := inPage cur len) (htake.symm ▸ hfirst.mono sp hs' ?_)
          (by rwa [hdrop]) (by omega)
        intro i hi c hc
        rw [hlen] at hi
        obtain ⟨c', hc', hpage⟩ := VirtAddr.add?_inPage ha hi
        obtain rfl := Option.some.inj (hc'.symm.trans hc)
        refine (readFrom_bypasses hs' hw.unpinned _ _ _ fun i' hi' d hd' => ?_).of_ok hx
        rw [hpage, Ne, PageId.mk.injEq, not_and]
        exact fun _ => VirtAddr.page_ne_of_inPage ha (by omega) hd'

theorem keepsByte_of_opens {w : World} {cs : List Change} (hs : m.layout.Sound)
    (ho : m.layout.Opens s a sp w cs) (hc : m.layout.Course cs t.layout) :
    m.layout.KeepsByte id j t.layout := by
  by_cases hid : id = ⟨s, a.page⟩
  · subst hid
    intro b hb
    rw [Layout.cell_of_course hs hc, ho.eq_nil hb]
    exact ⟨b, hb, rfl⟩
  · exact .of_cell (Layout.cell_of_course_other hs hc fun c hmem => by rwa [ho.target c hmem])

theorem touch_keepsByte (hs : m.layout.Sound) (hu : m.layout.Unpinned) (write : Bool) :
    Ends (touch s a write sp retries) m (fun _ _ => True)
      (fun _ t => m.layout.KeepsByte id j t.layout) := by
  refine (touch_ends hs hu write 0).mono (fun _ _ _ => trivial) ?_
  rintro f t ⟨-, cs, hb, hw⟩
  cases hb with
  | same => exact .of_cell (congrFun (Layout.cell_of_course hs hw.course) id)
  | grown hpage =>
      by_cases hid : id = ⟨s, a.page⟩
      · subst hid
        intro b hb
        rw [Layout.cell_eq_none.mpr hpage] at hb
        cases hb
      · refine .of_cell (Layout.cell_of_course_other hs hw.course fun c hc => ?_)
        rwa [List.mem_singleton.mp hc]

theorem writePiece_keepsByte (hs : m.layout.Sound) (hu : m.layout.Unpinned)
    (hj : id = ⟨s, a.page⟩ → ¬(a.offset ≤ j ∧ j < a.offset + bs.length)) :
    Ends (writePiece s a sp bs) m (fun _ t => m.layout.KeepsByte id j t.layout)
      (fun _ _ => True) := by
  refine (writePiece_ends hs hu bs).mono ?_ fun _ _ _ => trivial
  rintro _ t ⟨cs, ho, hw⟩
  by_cases hid : id = ⟨s, a.page⟩
  · subst hid
    intro b hb
    rw [Layout.cell_of_course hs hw.course, ho.eq_nil hb]
    simp only [List.nil_append, List.foldl_cons, List.foldl_nil, Change.apply,
      Function.update_self, hb]
    refine ⟨_, rfl, ?_⟩
    have := hj rfl
    rw [Bytes.getElem?_splice, if_neg (by omega)]
  · refine .of_cell (Layout.cell_of_course_other hs hw.course fun c hc => ?_)
    rcases List.mem_append.mp hc with hc | hc
    · rwa [ho.target c hc]
    · rwa [List.mem_singleton.mp hc]

theorem writeFrom_keepsByte (hs : m.layout.Sound) (hu : m.layout.Unpinned) (k : Nat)
    (data : List UInt8)
    (hj : ∀ i < data.length, ∀ c, a.add? (k + i) = some c → id = ⟨s, c.page⟩ → j ≠ c.offset) :
    Ends (writeFrom s a sp k data) m (fun _ u => m.layout.KeepsByte id j u.layout)
      (fun _ _ => True) := by
  induction k, data using writeFrom.induct a generalizing m with
  | case1 k =>
      rw [writeFrom_nil]
      exact .of_cell rfl
  | case2 k data hd ha =>
      rw [writeFrom, dif_neg hd, ha]
      trivial
  | case3 k data hd cur ha ih =>
      have hle := inPage_le cur data.length
      have hout (hid : id = ⟨s, cur.page⟩) : ¬(cur.offset ≤ j ∧
          j < cur.offset + (data.take (inPage cur data.length)).length) := by
        rw [List.length_take_of_le hle]
        intro hin
        have hi : j - cur.offset < inPage cur data.length := by omega
        obtain ⟨c, hc, hpage, hoff⟩ := VirtAddr.add?_inPage_offset ha hi
        exact hj (j - cur.offset) (by omega) c hc (by rw [hpage, hid]) (by omega)
      rw [writeFrom_eq hd ha, ends_bind]
      refine ((writePiece_keepsByte hs hu hout).and (writePiece_stops hs hu _)).mono ?_
        fun _ _ _ => trivial
      rintro _ w ⟨hkeep, hs', hu'⟩
      refine (ih hs' hu' fun i hi c hc => ?_).mono (fun _ _ h => hkeep.trans h) fun _ _ h => h
      rw [List.length_drop] at hi
      exact hj (inPage cur data.length + i) (by omega) c (by rw [← Nat.add_assoc]; exact hc)

theorem readFrom_keepsByte (hs : m.layout.Sound) (hu : m.layout.Unpinned) (k len : Nat)
    (acc : List UInt8) :
    Ends (readFrom s a sp k len) (m, acc)
      (fun _ u => m.layout.KeepsByte id j u.1.layout) (fun _ _ => True) := by
  induction k, len using readFrom.induct a generalizing m acc with
  | case1 k =>
      rw [readFrom_zero]
      exact .of_cell rfl
  | case2 k len hd ha =>
      rw [readFrom, dif_neg hd, ha]
      trivial
  | case3 k len hd cur ha ih =>
      rw [readFrom, dif_neg hd, ha, ends_bind, ends_zoom]
      refine (readPiece_ends hs hu _).mono ?_ fun _ _ _ => trivial
      rintro bs w ⟨cs, ho, hw, -⟩
      rw [ends_bind, ends_modify]
      exact (ih (hs.of_course hw.course) hw.unpinned _).mono
        (fun _ _ h => (keepsByte_of_opens hs ho hw.course).trans h) fun _ _ h => h

theorem contents?_of_keepsByte (hs : m.layout.Sound) (ht : t.layout.Sound)
    (hpage : m.page? id = some page) (hk : page.currentType = .anon)
    (h : m.layout.KeepsByte id j t.layout) :
    (t.contents? id).bind (·[j]?) = (m.contents? id).bind (·[j]?) := by
  obtain ⟨b, hb⟩ := exists_bytes hpage hk
  obtain ⟨b', hb', he⟩ := h b hb
  rw [contents?_of_bytes hs hb, contents?_of_bytes ht hb']
  exact he

theorem keepsRest_of_bypasses (sp : VirtAddr) {n stored : Nat} (hs : m.layout.Sound)
    (ht : t.layout.Sound)
    (hby : ∀ id, (∀ i ≤ n, ∀ c, a.add? i = some c → id ≠ ⟨s, c.page⟩) →
      m.layout.Bypasses s sp id t.layout)
    (hkeep : ∀ id j, (∀ i < stored, ∀ c, a.add? i = some c → id = ⟨s, c.page⟩ → j ≠ c.offset) →
      m.layout.KeepsByte id j t.layout) : m.KeepsRest s a n stored t where
  absent id hpage hid := by
    have hpage : m.layout.page id = none := hpage
    exact ((hby id hid).stays.idle (by rw [Layout.home?, hpage]; rfl)).trans hpage
  pages id page hpage hid := unwritten_of_bypasses hs hpage (hby id hid)
  bytes id page j hpage hk hj := contents?_of_keepsByte hs ht hpage hk (hkeep id j hj)

theorem BreaksOff.showsBytes {write : Bool} (h : BreaksOff s a sp write 0 len n b u f t)
    (hs : u.layout.Sound) (hu : u.layout.Unpinned) (hn : bs.length = n)
    (hb : u.ShowsBytes s a 0 bs) : t.ShowsBytes s a 0 bs := by
  refine hb.mono sp hs fun i hi c hc => (touch_bypasses hs hu ?_ write).of_error h.fails
  rw [Ne, PageId.mk.injEq, not_and]
  intro _
  rcases h.edge with rfl | hal
  · omega
  · exact VirtAddr.page_ne_of_aligned (h.next) hal hc (by omega)

theorem BreaksOff.sound {write : Bool} {k : Nat} (h : BreaksOff s a sp write k len n b u f t)
    (hs : u.layout.Sound) (hu : u.layout.Unpinned) : t.layout.Sound := by
  obtain ⟨-, cs, -, hw⟩ := (touch_ends hs hu write 0).of_error h.fails
  exact hs.of_course hw.course

theorem BreaksOff.keepsRest {write : Bool} {stored : Nat}
    (h : BreaksOff s a sp write 0 len n b u f t) (hm : m.layout.Sound)
    (hr : m.layout.Reaches s sp u.layout)
    (hby : ∀ id, (∀ i < n, ∀ c, a.add? (0 + i) = some c → id ≠ ⟨s, c.page⟩) →
      m.layout.Bypasses s sp id u.layout)
    (hkeep : ∀ id j, (∀ i < stored, ∀ c, a.add? (0 + i) = some c → id = ⟨s, c.page⟩ →
      j ≠ c.offset) → m.layout.KeepsByte id j u.layout) : m.KeepsRest s a n stored t := by
  obtain ⟨cs, hw, -⟩ := hr
  have hs := hm.of_course hw.course
  have hsum (i : Nat) : 0 + i = i := Nat.zero_add i
  simp only [hsum] at hby hkeep
  refine keepsRest_of_bypasses sp hm (h.sound hs hw.unpinned) (fun id hid => ?_)
    fun id j hj => ?_
  · have hid' := hid n le_rfl b (hsum n ▸ h.next)
    exact (hby id fun i hi => hid i hi.le).trans
      ((touch_bypasses hs hw.unpinned hid' write).of_error h.fails)
  · exact (hkeep id j hj).trans ((touch_keepsByte hs hw.unpinned write).of_error h.fails)

end Machine

open Machine in
/-- An access can be cut in two anywhere, and all is as if the parts were accesses
of their own. One that fails has transferred what lies before the page that cannot
be touched, and no more. -/
theorem Reachable.accesses_compose {m : Machine} (h : Reachable m) (s : SpaceId)
    (a sp : VirtAddr) :
    (∀ xs ys : List UInt8, a.toNat + xs.length + ys.length < wordBound →
      ∃ b, a.add? xs.length = some b ∧
        writeUser s a (xs ++ ys) sp m =
          (do writeUser s a xs sp; writeUser s b ys sp : Step Machine Unit) m) ∧
    (∀ (n k : Nat) (acc : List UInt8), a.toNat + n + k < wordBound →
      ∃ b, a.add? n = some b ∧
        readUser s a (n + k) sp (m, acc) =
          (do readUser s a n sp; readUser s b k sp : Step (Machine × List UInt8) Unit) (m, acc)) ∧
    (∀ (data : List UInt8) (f : Failure) (t : Machine), a.toNat + data.length < wordBound →
      writeUser s a data sp m = .error f t →
      ∃ n b u, n < data.length ∧ a.add? n = some b ∧ (n = 0 ∨ b.aligned = true) ∧
        writeUser s a (data.take n) sp m = .ok () u ∧
        touch s b true sp retries u = .error f t ∧
        StoresInFrames s a sp 0 (data.take n) m u ∧ t.ShowsBytes s a 0 (data.take n) ∧
        m.KeepsRest s a n n t) ∧
    (∀ (len : Nat) (f : Failure) (t : Machine) (bs : List UInt8), a.toNat + len < wordBound →
      readUser s a len sp (m, []) = .error f (t, bs) →
      ∃ b u, bs.length < len ∧ a.add? bs.length = some b ∧ (bs.length = 0 ∨ b.aligned = true) ∧
        readUser s a bs.length sp (m, []) = .ok () (u, bs) ∧
        touch s b false sp retries u = .error f t ∧
        ReadsFromFrames s a sp 0 bs m u ∧ t.ShowsBytes s a 0 bs ∧
        m.KeepsRest s a bs.length 0 t) := by
  obtain ⟨hs, hu⟩ := h.sound
  refine ⟨fun xs ys hlt => ?_, fun n k acc hlt => ?_, fun data f t hlt hx => ?_,
    fun len f t bs hlt hx => ?_⟩
  · obtain ⟨b, hb⟩ := VirtAddr.exists_add? (Nat.lt_of_le_of_lt (Nat.le_add_right ..) hlt)
    exact ⟨b, hb, congrFun (writeUser_append hb ys) m⟩
  · obtain ⟨b, hb⟩ := VirtAddr.exists_add? (Nat.lt_of_le_of_lt (Nat.le_add_right ..) hlt)
    exact ⟨b, hb, congrFun (readUser_add hb k) (m, acc)⟩
  · obtain ⟨n, b, u, hstop, hok⟩ := (writeFrom_stops hs hu 0 data hlt).of_error hx
    have hlen : (data.take n).length = n := List.length_take_of_le hstop.short.le
    obtain ⟨hr, hstores, hshows⟩ := (writeFrom_inFrames hs hu 0 (data.take n)).of_ok hok
    obtain ⟨cs, hw, -⟩ := id hr
    refine ⟨n, b, u, hstop.short, Nat.zero_add n ▸ hstop.next, hstop.edge, hok, hstop.fails,
      hstores, hstop.showsBytes (hs.of_course hw.course) hw.unpinned hlen hshows,
      hstop.keepsRest hs hr (fun id hid => ?_) fun id j hj => ?_⟩
    · exact (writeFrom_bypasses hs hu 0 _ (by rwa [hlen])).of_ok hok
    · exact (writeFrom_keepsByte hs hu 0 _ (by rwa [hlen])).of_ok hok
  · obtain ⟨n, b, u, hstop, hok, hlen⟩ := (readFrom_stops hs hu 0 len [] hlt).of_error hx
    obtain rfl : bs.length = n := by rw [hlen, List.length_nil, Nat.zero_add]
    obtain ⟨bs', heq, -, hr, hreads, hshows⟩ := (readFrom_inFrames hs hu 0 _ []).of_ok hok
    obtain rfl : bs = bs' := heq
    obtain ⟨cs, hw, -⟩ := id hr
    refine ⟨b, u, hstop.short, Nat.zero_add bs.length ▸ hstop.next, hstop.edge, hok, hstop.fails,
      hreads, hstop.showsBytes (hs.of_course hw.course) hw.unpinned rfl hshows,
      hstop.keepsRest hs hr (fun id hid => ?_) fun id j _ => ?_⟩
    · exact (readFrom_bypasses hs hu 0 _ _ hid).of_ok hok
    · have hkeep : Ends (readFrom s a sp 0 bs.length) (m, [])
          (fun _ x => m.layout.KeepsByte id j x.1.layout) _ := readFrom_keepsByte hs hu 0 _ []
      have hbyte := hkeep.of_ok hok
      exact hbyte

open Machine in
theorem accesses_compose_two_pages_one_frame :
    ∃ m f t f' t', m = ((Op.alloc 0 .anon ⟨8192⟩ true none).run
        ((Op.alloc 0 .anon ⟨4096⟩ true none).run (.boot {} (.ofCapacity 1) none [])).2).2 ∧
      writeUser 0 ⟨8190⟩ [1, 2, 3] ⟨0⟩ m = .error f t ∧
      readUser 0 ⟨8190⟩ 3 ⟨0⟩ (t, []) = .error f' (t', [1, 2]) ∧
      t.byteAt? 0 ⟨8190⟩ = some 1 ∧ t.byteAt? 0 ⟨8191⟩ = some 2 ∧ t.byteAt? 0 ⟨8192⟩ = none ∧
      (∃ b, (⟨8190⟩ : VirtAddr).add? 1 = some b ∧
        writeUser 0 ⟨8190⟩ ([1] ++ [2, 3]) ⟨0⟩ m = (do
          writeUser 0 ⟨8190⟩ [1] ⟨0⟩
          writeUser 0 b [2, 3] ⟨0⟩ : Step Machine Unit) m) ∧
      (∃ b, (⟨8190⟩ : VirtAddr).add? 1 = some b ∧
        readUser 0 ⟨8190⟩ (1 + 2) ⟨0⟩ (m, []) = (do
          readUser 0 ⟨8190⟩ 1 ⟨0⟩
          readUser 0 b 2 ⟨0⟩ : Step (Machine × List UInt8) Unit) (m, [])) ∧
      (∃ n b u, n < 3 ∧ (⟨8190⟩ : VirtAddr).add? n = some b ∧ (n = 0 ∨ b.aligned = true) ∧
        writeUser 0 ⟨8190⟩ ([1, 2, 3].take n) ⟨0⟩ m = .ok () u ∧
        touch 0 b true ⟨0⟩ retries u = .error f t ∧
        StoresInFrames 0 ⟨8190⟩ ⟨0⟩ 0 ([1, 2, 3].take n) m u ∧
        t.ShowsBytes 0 ⟨8190⟩ 0 ([1, 2, 3].take n) ∧ m.KeepsRest 0 ⟨8190⟩ n n t) ∧
      ∃ b u, (⟨8190⟩ : VirtAddr).add? 2 = some b ∧ b.aligned = true ∧
        readUser 0 ⟨8190⟩ 2 ⟨0⟩ (t, []) = .ok () (u, [1, 2]) ∧
        touch 0 b false ⟨0⟩ retries u = .error f' t' ∧
        ReadsFromFrames 0 ⟨8190⟩ ⟨0⟩ 0 [1, 2] t u ∧ t'.ShowsBytes 0 ⟨8190⟩ 0 [1, 2] ∧
        t.KeepsRest 0 ⟨8190⟩ 2 0 t' := by
  have h₀ : Starts (.boot {} (.ofCapacity 1) none []) :=
    ⟨{}, 1, none, [], by decide, by rintro d ⟨⟩, rfl⟩
  have hr : Runs (.boot {} (.ofCapacity 1) none [])
      [(.alloc 0 .anon ⟨4096⟩ true none, _), (.alloc 0 .anon ⟨8192⟩ true none, _)] _ :=
    .cons trivial (.cons trivial (.nil _))
  have hr' : Runs (.boot {} (.ofCapacity 1) none [])
      [(.alloc 0 .anon ⟨4096⟩ true none, _), (.alloc 0 .anon ⟨8192⟩ true none, _),
        (.write 0 ⟨8190⟩ [1, 2, 3] ⟨0⟩, _)] _ :=
    .cons trivial (.cons trivial (.cons trivial (.nil _)))
  have h : Reachable ((Op.alloc 0 .anon ⟨8192⟩ true none).run
      ((Op.alloc 0 .anon ⟨4096⟩ true none).run (.boot {} (.ofCapacity 1) none [])).2).2 :=
    ⟨_, _, h₀, hr⟩
  have h' : Reachable ((Op.write 0 ⟨8190⟩ [1, 2, 3] ⟨0⟩).run
      ((Op.alloc 0 .anon ⟨8192⟩ true none).run
        ((Op.alloc 0 .anon ⟨4096⟩ true none).run (.boot {} (.ofCapacity 1) none [])).2).2).2 :=
    ⟨_, _, h₀, hr'⟩
  generalize hm : ((Op.alloc 0 .anon ⟨8192⟩ true none).run
    ((Op.alloc 0 .anon ⟨4096⟩ true none).run (.boot {} (.ofCapacity 1) none [])).2).2 = m at h h'
  obtain ⟨t, hw⟩ : ∃ t, writeUser 0 ⟨8190⟩ [1, 2, 3] ⟨0⟩ m = .error (.errno .enomem) t :=
    exists_error_of_perform (by rw [← hm]; decide +kernel)
  have ht : ((Op.write 0 ⟨8190⟩ [1, 2, 3] ⟨0⟩).run m).2 = t := by
    change (perform (writeUser 0 ⟨8190⟩ [1, 2, 3] ⟨0⟩) m).2 = t
    rw [perform, hw]
  have hbytes : t.byteAt? 0 ⟨8190⟩ = some 1 ∧ t.byteAt? 0 ⟨8191⟩ = some 2 ∧
      t.byteAt? 0 ⟨8192⟩ = none := by
    rw [← ht, ← hm]
    decide +kernel
  obtain ⟨t', hrd⟩ :
      ∃ t', readUser 0 ⟨8190⟩ 3 ⟨0⟩ (t, []) = .error (.errno .enomem) (t', [1, 2]) := by
    have hread : (performRead 0 ⟨8190⟩ 3 ⟨0⟩ t).1.failure = some (.errno .enomem) ∧
        (performRead 0 ⟨8190⟩ 3 ⟨0⟩ t).1.bytes = [1, 2] := by
      rw [← ht, ← hm]
      decide +kernel
    rw [← hread.2]
    exact exists_error_of_performRead hread.1
  obtain ⟨hwrites, hreads, hfails, -⟩ := Reachable.accesses_compose h 0 ⟨8190⟩ ⟨0⟩
  obtain ⟨-, -, -, hfails'⟩ := Reachable.accesses_compose (ht ▸ h') 0 ⟨8190⟩ ⟨0⟩
  obtain ⟨b, u, -, hb, hal, hread, htouch, htransfer⟩ := hfails' 3 _ t' [1, 2] (by decide) hrd
  exact ⟨m, _, t, _, t', rfl, hw, hrd, hbytes.1, hbytes.2.1, hbytes.2.2,
    hwrites [1] [2, 3] (by decide), hreads 1 2 [] (by decide),
    hfails [1, 2, 3] _ t (by decide) hw, b, u, hb, hal.resolve_left (by decide), hread, htouch,
    htransfer⟩

end Pager
