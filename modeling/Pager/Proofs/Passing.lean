import Pager.Proofs.Evolving
import Pager.Proofs.Inherited
import Pager.Proofs.Verdicts

namespace Pager

open Step

/-- How many bytes an access got past before it ended. -/
def Report.passed (r : Report) : Nat :=
  r.bytes.length + (r.stored.flatMap Piece.bytes).length

theorem VirtAddr.add?_inPage {a cur : VirtAddr} {k i len : Nat} (ha : a.add? k = some cur)
    (hi : i < Machine.inPage cur len) :
    ∃ b : VirtAddr, a.add? (k + i) = some b ∧ b.page = cur.page := by
  have hcur := toNat_of_add? ha
  have hoff : cur.toNat % pageSize + i < pageSize := by
    have h : i < pageSize - cur.offset := lt_of_lt_of_le hi (Nat.min_le_left _ _)
    have := cur.offset_lt
    unfold offset at *
    omega
  cases hb : a.add? (k + i) with
  | none =>
      have hge := add?_eq_none.mp hb
      have hlt := cur.toNat_lt
      unfold wordBound pageSize at *
      omega
  | some b =>
      have hbn := toNat_of_add? hb
      exact ⟨b, rfl, (page_eq_of_offset (by omega) hoff).1⟩

namespace Layout

variable {l l₁ l' : Layout} {s : SpaceId} {a sp cur : VirtAddr} {write : Bool} {k len n : Nat}
  {o : Option Failure}

def Reaches (l : Layout) (s : SpaceId) (sp : VirtAddr) (l' : Layout) : Prop :=
  ∃ cs, l.UnpinnedCourse cs l' ∧ l.Grows s sp cs

theorem Reaches.refl (h : l.Unpinned) : l.Reaches s sp l := ⟨[], .refl h, .nil⟩

theorem Reaches.trans (h : l.Reaches s sp l₁) (h' : l₁.Reaches s sp l') : l.Reaches s sp l' := by
  obtain ⟨cs, hw, hg⟩ := h
  obtain ⟨ds, hw', hg'⟩ := h'
  exact ⟨cs ++ ds, hw.trans hw', hg.append hg' (config_of_course hw.course)⟩

def Admits (l : Layout) (s : SpaceId) (a : VirtAddr) (write : Bool) : Prop :=
  ∃ page, l.page ⟨s, a.page⟩ = some page ∧ (write = true → page.writable = true)

theorem Admits.congr {b : VirtAddr} (h : l.Admits s a write) (hb : b.page = a.page) :
    l.Admits s b write := by
  rwa [Admits, hb]

inductive Halts (l : Layout) (s : SpaceId) (a sp : VirtAddr) (write : Bool) (k len n : Nat) :
    Option Failure → Prop
  | whole (hn : n = len) : Halts l s a sp write k len n none
  | overflow (hn : n < len) (ha : a.add? (k + n) = none) :
      Halts l s a sp write k len n (some (.panic .addOverflow))
  | stopped {cur : VirtAddr} {l' : Layout} {f : Failure} (hn : n < len)
      (ha : a.add? (k + n) = some cur) (hr : l.Reaches s sp l') (he : l'.Expects f)
      (hf : ∀ e, l'.verdict s cur write = some e → f = .errno e) :
      Halts l s a sp write k len n (some f)

structure Passes (l : Layout) (s : SpaceId) (a sp : VirtAddr) (write : Bool) (k len n : Nat)
    (o : Option Failure) : Prop where
  passed : ∀ i < n, ∃ b l', a.add? (k + i) = some b ∧ l.Reaches s sp l' ∧ l'.Admits s b write
  halts : l.Halts s a sp write k len n o

namespace Passes

theorem of_halts (h : l.Halts s a sp write k len 0 o) : l.Passes s a sp write k len 0 o :=
  ⟨fun _ hi => absurd hi (Nat.not_lt_zero _), h⟩

theorem piece (ha : a.add? k = some cur) (hr : l.Reaches s sp l₁) (had : l₁.Admits s cur write)
    (h : l₁.Passes s a sp write (k + Machine.inPage cur len) (len - Machine.inPage cur len) n o) :
    l.Passes s a sp write k len (Machine.inPage cur len + n) o := by
  have hle := Machine.inPage_le cur len
  generalize hc : Machine.inPage cur len = c at h hle
  refine ⟨fun i hi => ?_, ?_⟩
  · by_cases hic : i < c
    · obtain ⟨b, hb, hpage⟩ := VirtAddr.add?_inPage ha (hc ▸ hic)
      exact ⟨b, l₁, hb, hr, had.congr hpage⟩
    · obtain ⟨b, l', hb, hr', had'⟩ := h.passed (i - c) (by omega)
      have hsum : k + c + (i - c) = k + i := by omega
      exact ⟨b, l', hsum ▸ hb, hr.trans hr', had'⟩
  · have hsum : k + c + n = k + (c + n) := by omega
    cases h.halts with
    | whole hn => exact .whole (by omega)
    | overflow hn ha' => exact .overflow (by omega) (hsum ▸ ha')
    | stopped hn ha' hr' he hf =>
        exact .stopped (by omega) (hsum ▸ ha') (hr.trans hr') he hf

end Passes

end Layout

namespace Machine

open Layout

variable {m : Machine} {s : SpaceId} {a sp : VirtAddr}

theorem readPiece_reaches (hs : m.layout.Sound) (hu : m.layout.Unpinned) (n : Nat) :
    Ends (readPiece s a sp n) m
      (fun _ t => m.layout.Reaches s sp t.layout ∧ t.layout.Admits s a false)
      (fun f _ => m.layout.Expects f ∧
        ∀ e, m.layout.verdict s a false = some e → f = .errno e) := by
  refine ((readPiece_ends hs hu n).and (ends_self _ m)).mono ?_ ?_
  · intro bs t h
    obtain ⟨⟨cs, ho, hw, page, f, p, hin, -⟩, -⟩ := h
    exact ⟨⟨cs, hw, ho.grows⟩, page, hin.1, by rintro ⟨⟩⟩
  · intro f t h
    exact ⟨h.1.1, fun e hv => ((readPiece_denied hs hv n).of_error h.2).1⟩

theorem writePiece_admits (hs : m.layout.Sound) (hu : m.layout.Unpinned) (bs : List UInt8) :
    Ends (writePiece s a sp bs) m (fun _ t => t.layout.Admits s a true) (fun _ _ => True) := by
  simp only [writePiece, ends_bind]
  refine (touch_ends hs hu true 0).mono ?_ fun _ _ _ => trivial
  intro p t h
  obtain ⟨cs, l, -, hw, page, f, hmap, hwr, hl⟩ := h
  have hr := inRange_touched hs hw hmap hl
  rw [ends_readFrame hr, ends_writeFrame hr, layout_store t hr, hl]
  exact ⟨page, hmap.1.1, hwr⟩

theorem writePiece_reaches (hs : m.layout.Sound) (hu : m.layout.Unpinned) (bs : List UInt8) :
    Ends (writePiece s a sp bs) m
      (fun _ t => m.layout.Reaches s sp t.layout ∧ t.layout.Admits s a true)
      (fun f _ => m.layout.Expects f ∧
        ∀ e, m.layout.verdict s a true = some e → f = .errno e) := by
  refine (((writePiece_ends hs hu bs).and (writePiece_admits hs hu bs)).and (ends_self _ m)).mono
    ?_ ?_
  · intro _ t h
    obtain ⟨⟨⟨cs, ho, hw⟩, had⟩, -⟩ := h
    exact ⟨⟨_, hw, ho.grows.store _ _⟩, had⟩
  · intro f t h
    exact ⟨h.1.1.1, fun e hv => ((writePiece_denied hs hv bs).of_error h.2).1⟩

theorem writeFrom_passes (hs : m.layout.Sound) (hu : m.layout.Unpinned) (k : Nat)
    (data : List UInt8) :
    Ends (writeFrom s a sp k data) m
      (fun _ _ => m.layout.Passes s a sp true k data.length
        ((writeTrail s a sp k data m).flatMap (fun p => p.1.bytes)).length none)
      (fun f _ => m.layout.Passes s a sp true k data.length
        ((writeTrail s a sp k data m).flatMap (fun p => p.1.bytes)).length (some f)) := by
  fun_induction writeTrail s a sp k data m with
  | case1 =>
      rw [writeFrom, dif_pos rfl]
      exact .of_halts (.whole rfl)
  | case2 k data m hd ha =>
      rw [writeFrom, dif_neg hd, ha]
      exact .of_halts (.overflow (List.length_pos_iff.mpr hd) ha)
  | case3 k data m hd cur ha e t hx =>
      rw [writeFrom, dif_neg hd, ha, ends_bind, ends_of_error hx]
      obtain ⟨he, hv⟩ := (writePiece_reaches hs hu _).of_error hx
      exact .of_halts (.stopped (List.length_pos_iff.mpr hd) ha (.refl hu) he hv)
  | case4 k data m hd cur ha u t hx ih =>
      rw [writeFrom, dif_neg hd, ha, ends_bind, ends_of_ok hx]
      obtain ⟨hr, had⟩ := (writePiece_reaches hs hu _).of_ok hx
      obtain ⟨cs, hw, -⟩ := id hr
      have hlen : (data.take (inPage cur data.length)).length = inPage cur data.length :=
        List.length_take_of_le (inPage_le cur data.length)
      have hdrop : (data.drop (inPage cur data.length)).length =
          data.length - inPage cur data.length := List.length_drop
      simp only [List.flatMap_cons, List.length_append, hlen]
      rw [hdrop] at ih
      apply (ih (hs.of_course hw.course) hw.unpinned).mono
      · exact fun _ _ h => .piece ha hr had h
      · exact fun _ _ h => .piece ha hr had h

theorem readFrom_passes (hs : m.layout.Sound) (hu : m.layout.Unpinned) (k len : Nat)
    (acc : List UInt8) :
    Ends (readFrom s a sp k len) (m, acc)
      (fun _ t => ∃ bs, t.2 = acc ++ bs ∧ m.layout.Passes s a sp false k len bs.length none)
      (fun f t => ∃ bs, t.2 = acc ++ bs ∧
        m.layout.Passes s a sp false k len bs.length (some f)) := by
  fun_induction readTrail s a sp k len m generalizing acc with
  | case1 =>
      rw [readFrom, dif_pos rfl]
      exact ⟨[], by simp, .of_halts (.whole rfl)⟩
  | case2 k len m hd ha =>
      rw [readFrom, dif_neg hd, ha]
      exact ⟨[], by simp, .of_halts (.overflow (Nat.pos_of_ne_zero hd) ha)⟩
  | case3 k len m hd cur ha e t hx =>
      rw [readFrom, dif_neg hd, ha, ends_bind, ends_zoom, ends_of_error hx]
      obtain ⟨he, hv⟩ := (readPiece_reaches hs hu _).of_error hx
      exact ⟨[], by simp, .of_halts (.stopped (Nat.pos_of_ne_zero hd) ha (.refl hu) he hv)⟩
  | case4 k len m hd cur ha bs t hx ih =>
      rw [readFrom, dif_neg hd, ha, ends_bind, ends_zoom, ends_of_ok hx, ends_bind, ends_modify]
      obtain ⟨hr, had⟩ := (readPiece_reaches hs hu _).of_ok hx
      obtain ⟨cs, -, hw, page, f, p, hin, rfl⟩ := (readPiece_ends hs hu _).of_ok hx
      have hlen := Reads.length_slice_inPage (t.layout.bytes p) cur len
      apply (ih (hs.of_course hw.course) hw.unpinned _).mono
      · intro _ t' h
        obtain ⟨ds, hds, h⟩ := h
        refine ⟨_, by rw [hds, List.append_assoc], ?_⟩
        rw [List.length_append, hlen]
        exact .piece ha hr had h
      · intro f t' h
        obtain ⟨ds, hds, h⟩ := h
        refine ⟨_, by rw [hds, List.append_assoc], ?_⟩
        rw [List.length_append, hlen]
        exact .piece ha hr had h

end Machine

namespace Op

open Machine

variable {m : Machine} {s : SpaceId} {a sp : VirtAddr}

theorem write_passes (hs : m.layout.Sound) (hu : m.layout.Unpinned) (data : List UInt8) :
    m.layout.Passes s a sp true 0 data.length ((Op.write s a data sp).run m).1.passed
      ((Op.write s a data sp).run m).1.failure := by
  have h : Ends (writeFrom s a sp 0 data) m _ _ := writeFrom_passes hs hu 0 data
  have hsum (o : Option Failure) (ws : List World) :
      (Report.mk o [] ((writeTrail s a sp 0 data m).map Prod.fst) ws).passed =
        ((writeTrail s a sp 0 data m).flatMap (fun p => p.1.bytes)).length := by
    rw [Report.passed, List.length_nil, Nat.zero_add, List.flatMap_map]
  change m.layout.Passes s a sp true 0 data.length (performWrite s a data sp m).1.passed
    (performWrite s a data sp m).1.failure
  unfold performWrite perform writeUser
  cases hx : writeFrom s a sp 0 data m with
  | ok u t => exact hsum none _ ▸ h.of_ok hx
  | error f t => exact hsum (some f) _ ▸ h.of_error hx

theorem read_passes (hs : m.layout.Sound) (hu : m.layout.Unpinned) (len : Nat) :
    m.layout.Passes s a sp false 0 len ((Op.read s a len sp).run m).1.passed
      ((Op.read s a len sp).run m).1.failure := by
  have h : Ends (readFrom s a sp 0 len) (m, []) _ _ := readFrom_passes hs hu 0 len []
  change m.layout.Passes s a sp false 0 len (performRead s a len sp m).1.passed
    (performRead s a len sp m).1.failure
  unfold performRead readUser
  cases hx : readFrom s a sp 0 len (m, []) with
  | ok u t =>
      obtain ⟨bs, hbs, h'⟩ := h.of_ok hx
      rw [List.nil_append] at hbs
      rw [← hbs] at h'
      exact h'
  | error f t =>
      obtain ⟨bs, hbs, h'⟩ := h.of_error hx
      rw [List.nil_append] at hbs
      rw [← hbs] at h'
      exact h'

end Op

end Pager
