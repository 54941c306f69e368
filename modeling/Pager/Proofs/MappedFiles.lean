import Pager.Proofs.Laying
import Pager.Proofs.Mirroring

namespace Pager

open Step

/-- What the pages of a mapping show: `len` bytes of a file from `offset` on, as
far as the file reaches, and zeros up to the end of the last page. -/
def mappedBytes (d : Array UInt8) (offset len : Nat) : List UInt8 :=
  (d.toList.drop offset).take len ++
    List.replicate (Machine.pagesFor len * pageSize - min len (d.size - offset)) 0

def mappedSegment (d : Array UInt8) (len : Nat) (file : FileId) (offset i : Nat) : Segment :=
  ⟨file, offset + i * pageSize, min (min (d.size - offset) len - i * pageSize) pageSize,
    Nat.min_le_right _ _⟩

section Bytes

variable {d : Array UInt8} {len offset i j n : Nat} {writable : Bool} {file : FileId}

theorem segment?_mappedPages :
    (Machine.mappedPages d len writable file offset i).segment? =
      some (mappedSegment d len file offset i) := rfl

theorem getElem?_mappedBytes_file (h : j < min len (d.size - offset)) :
    (mappedBytes d offset len)[j]? = d[offset + j]? := by
  rw [mappedBytes, List.getElem?_append_left, List.getElem?_take_of_lt (by omega),
    List.getElem?_drop, Array.getElem?_toList]
  rw [List.length_take, List.length_drop, Array.length_toList]
  exact h

theorem getElem?_mappedBytes_behind (h : min len (d.size - offset) ≤ j)
    (hj : j < Machine.pagesFor len * pageSize) : (mappedBytes d offset len)[j]? = some 0 := by
  have hlen : ((d.toList.drop offset).take len).length = min len (d.size - offset) := by
    rw [List.length_take, List.length_drop, Array.length_toList]
  rw [mappedBytes, List.getElem?_append_right (by omega), hlen, List.getElem?_replicate,
    if_pos (by omega)]

theorem fits_mappedSegment : (mappedSegment d len file offset i).Fits d.size := by
  unfold Segment.Fits mappedSegment
  dsimp only
  omega

theorem getElem?_image_mapped (hi : i < Machine.pagesFor len) (hj : j < pageSize) :
    ((mappedSegment d len file offset i).image d)[j]? =
      (mappedBytes d offset len)[i * pageSize + j]? := by
  by_cases hlt : j < (mappedSegment d len file offset i).length
  · rw [Segment.getElem?_image fits_mappedSegment hlt]
    simp only [mappedSegment] at hlt ⊢
    rw [getElem?_mappedBytes_file (by omega), Nat.add_assoc]
  · have hspan : i * pageSize + pageSize ≤ Machine.pagesFor len * pageSize := by
      rw [← Nat.succ_mul]
      exact Nat.mul_le_mul_right _ hi
    rw [Segment.getElem?_image_behind d (by omega) hj]
    simp only [mappedSegment] at hlt
    rw [getElem?_mappedBytes_behind (by omega) (by omega)]

theorem slice_image_mapped (hi : i < Machine.pagesFor len) (hj : j + n ≤ pageSize) :
    Bytes.slice ((mappedSegment d len file offset i).image d) j n =
      ((mappedBytes d offset len).drop (i * pageSize + j)).take n := by
  apply List.ext_getElem?
  intro k
  rw [Bytes.getElem?_slice]
  split
  next hk =>
    rw [List.getElem?_take_of_lt hk, List.getElem?_drop, getElem?_image_mapped hi (by omega),
      Nat.add_assoc]
  next hk => rw [List.getElem?_take_eq_none (by omega)]

end Bytes

/-- Every page of a mapping is there with its part of the file, and has the
bytes of it whenever it is in a frame. -/
def Layout.ShowsFile (l : Layout) (s : SpaceId) (v : VirtPage) (d : Array UInt8) (len : Nat)
    (file : FileId) (offset : Nat) : Prop :=
  ∀ i < Machine.pagesFor len, l.segment? ⟨s, v.plus i⟩ = some (mappedSegment d len file offset i) ∧
    l.Mirrors ⟨s, v.plus i⟩ (mappedSegment d len file offset i) d

namespace Machine

variable {m t u : Machine} {s : SpaceId} {a cur sp : VirtAddr} {len offset k n : Nat}
  {writable : Bool} {file : FileId} {d : Array UInt8}

theorem page_of_add? (hal : a.aligned = true) (h : a.add? k = some cur) :
    cur.page = a.page.plus (k / pageSize) ∧ cur.offset = k % pageSize := by
  have hnat := VirtAddr.toNat_of_add? h
  have hcur := cur.toNat_lt
  have ha : a.toNat % pageSize = 0 := eq_of_beq hal
  refine ⟨?_, ?_⟩
  · have hplus : (a.page.plus (k / pageSize)).toNat = a.page.toNat + k / pageSize :=
      toNat_plus (by rw [a.toNat_page]; unfold pageSize at *; omega)
    have heq : cur.page.toNat = (a.page.plus (k / pageSize)).toNat := by
      rw [hplus, cur.toNat_page, a.toNat_page]
      unfold pageSize at *
      omega
    rw [VirtPage.mk.injEq]
    exact UInt64.toNat_inj.mp heq
  · unfold VirtAddr.offset pageSize at *
    omega

theorem readFrom_mapped (hs : m.layout.Sound) (hu : m.layout.Unpinned) (hal : a.aligned = true)
    (hm : m.layout.ShowsFile s a.page d len file offset) (hk : k + n ≤ pagesFor len * pageSize)
    (acc : List UInt8) (hfile : ∀ w ∈ readTrail s a sp k n m, w.data file = d) :
    Ends (readFrom s a sp k n) (m, acc)
      (fun _ t => t.2 = acc ++ ((mappedBytes d offset len).drop k).take n) (fun _ _ => True) := by
  fun_induction readTrail s a sp k n m generalizing acc with
  | case1 =>
      rw [readFrom, dif_pos rfl]
      exact (List.append_nil acc).symm
  | case2 k n m hd ha =>
      rw [readFrom, dif_neg hd, ha]
      trivial
  | case3 k n m hd cur ha e t hx =>
      rw [readFrom, dif_neg hd, ha, ends_bind, ends_zoom, ends_of_error hx]
      trivial
  | case4 k n m hd cur ha bs t hx ih =>
      rw [readFrom, dif_neg hd, ha, ends_bind, ends_zoom, ends_of_ok hx, ends_bind, ends_modify]
      obtain ⟨cs, ho, hw, page, f, p, hin, rfl⟩ := (readPiece_ends hs hu _).of_ok hx
      have hle := inPage_le cur n
      obtain ⟨hpage, hoff⟩ := page_of_add? hal ha
      have hi : k / pageSize < pagesFor len := by
        rw [Nat.div_lt_iff_lt_mul (by decide)]
        omega
      have hnow (i : Nat) (hi : i < pagesFor len) :=
        (readPiece_renews hs hu (hm i hi).1 (hm i hi).2 _).of_ok hx (hfile _ List.mem_cons_self)
      have hpiece : Bytes.slice (t.layout.bytes p) cur.offset (inPage cur n) =
          ((mappedBytes d offset len).drop k).take (inPage cur n) := by
        have hoffset : k % pageSize + inPage cur n ≤ pageSize := by
          have hlt := cur.offset_lt
          unfold inPage
          omega
        rw [hnow _ hi f p (hpage ▸ hin.home?_eq) hin.2.2, hoff, slice_image_mapped hi hoffset,
          Nat.div_add_mod']
      have hnext := ih (hs.of_course hw.course) hw.unpinned
        (fun i hi => ⟨Layout.segment?_of_lasts hw.course ho.grows.lasting (hm i hi).1, hnow i hi⟩)
        (by omega) (acc ++ Bytes.slice (t.layout.bytes p) cur.offset (inPage cur n))
        fun w hw => hfile w (List.mem_cons_of_mem _ hw)
      refine hnext.mono (fun _ _ h => h.trans ?_) fun _ _ h => h
      rw [hpiece, List.append_assoc, ← List.drop_drop, ← List.take_add,
        Nat.add_sub_cancel' hle]

/-- A file was mapped to a range of addresses. Its pages are all that is new,
and they show the file as long as nothing is written to it or to them. -/
structure MapsFile (m : Machine) (s : SpaceId) (a : VirtAddr) (len : Nat) (writable : Bool)
    (file : FileId) (offset : Nat) (t : Machine) : Prop where
  pages : ∀ i < pagesFor len, ∃ page, t.page? ⟨s, a.page.plus i⟩ = some page ∧
    page.writable = writable ∧ page.currentType = .uninit ∧ page.type = .file ∧
    page.span = if i = 0 then pagesFor len else 0
  others : ∀ id, (∀ i < pagesFor len, id ≠ ⟨s, a.page.plus i⟩) → t.page? id = m.page? id
  rest : t.layout = { m.layout with page := t.page? }
  reads : ∀ (trail : List (Op × Report)) (u : Machine) (n : Nat) (sp : VirtAddr),
    (∀ i < pagesFor len, Lives ⟨s, a.page.plus i⟩ t trail u ∧
      ∀ x ∈ trail, x.2.LeavesAlone ⟨s, a.page.plus i⟩ file (m.files.get file).data) →
    n ≤ pagesFor len * pageSize →
    (∀ w ∈ ((Op.read s a n sp).run u).1.worlds, w.data file = (m.files.get file).data) →
    ((Op.read s a n sp).run u).1.failure = none →
    ((Op.read s a n sp).run u).1.bytes = (mappedBytes (m.files.get file).data offset len).take n

theorem Lays.showsFile (h : m.Lays s a.page (List.range (pagesFor len))
    (mappedPages d len writable file offset) t) :
    t.layout.ShowsFile s a.page d len file offset := by
  intro i hi
  have hpage : t.layout.page ⟨s, a.page.plus i⟩ = some (mappedPages d len writable file offset i) :=
    h.laid i (List.mem_range.mpr hi)
  refine ⟨?_, Layout.mirrors_of_idle ?_⟩
  · rw [Layout.segment?, hpage, Option.bind_some, segment?_mappedPages]
  · rw [Layout.home?, hpage, Option.bind_some]
    rfl

theorem bytes_performRead_mapped (hs : m.layout.Sound) (hu : m.layout.Unpinned)
    (hal : a.aligned = true) (hm : m.layout.ShowsFile s a.page d len file offset)
    (hn : n ≤ pagesFor len * pageSize)
    (hfile : ∀ w ∈ (performRead s a n sp m).1.worlds, w.data file = d)
    (hok : (performRead s a n sp m).1.failure = none) :
    (performRead s a n sp m).1.bytes = (mappedBytes d offset len).take n := by
  have hread := readFrom_mapped hs hu hal hm (k := 0) (by omega) [] (worlds_performRead ▸ hfile)
  unfold performRead readUser at hok ⊢
  cases hx : readFrom s a sp 0 n (m, []) with
  | ok _ t => exact hread.of_ok hx
  | error e t =>
      rw [hx] at hok
      cases hok

end Machine

/-- A file is mapped exactly if there is something of it to be mapped and a free
range of user pages for that. -/
theorem Reachable.mmap_exact {m : Machine} (h : Reachable m) (s : SpaceId) (a : VirtAddr)
    (len : Nat) (writable : Bool) (file : FileId) (offset : Nat) :
    ((∃ t, Machine.mmap s a len writable file offset m = .ok a t) ↔
      m.Mappable s a len file offset) ∧
    (∀ r t, Machine.mmap s a len writable file offset m = .ok r t →
      r = a ∧ m.MapsFile s a len writable file offset t) ∧
    ∀ e t, Machine.mmap s a len writable file offset m = .error e t →
      (∃ k, e = .errno k) ∧ t.layout = m.layout := by
  obtain ⟨hs, hu⟩ := h.sound
  have hends : Ends (Machine.mmap s a len writable file offset) m _ _ := Machine.mmap_lays
  refine ⟨⟨fun hok => ?_, fun hm => ?_⟩, fun r t hx => ?_, fun e t hx => (hends.of_error hx).2⟩
  · obtain ⟨t, hx⟩ := hok
    exact (hends.of_ok hx).2.1
  · cases hx : Machine.mmap s a len writable file offset m with
    | ok r t => exact ⟨t, by rw [(hends.of_ok hx).1]⟩
    | error e t => exact absurd hm (hends.of_error hx).1
  · obtain ⟨hr, hm, hlays⟩ := hends.of_ok hx
    have hrun : ((Op.mmap s a len writable file offset).run m).2 = t := by
      simp only [Op.run, Machine.perform, hx]
    have ha : (Op.mmap s a len writable file offset).Admissible m := trivial
    obtain ⟨cs, hw, -⟩ := Op.goes_run hs hu ha
    rw [hrun] at hw
    refine ⟨hr, fun i hi => ⟨_, hlays.laid i (List.mem_range.mpr hi), rfl, rfl, rfl, rfl⟩,
      fun id hid => hlays.others id fun i hi => hid i (List.mem_range.mp hi), hlays.rest, ?_⟩
    intro trail u n sp hlives hn hfile hok
    have hshows := hlays.showsFile
    have hs' := hs.of_course hw.course
    obtain ⟨hsu, huu⟩ := (hlives 0 (Machine.pagesFor_pos hm.pos)).1.runs.sound hs' hw.unpinned
    refine Machine.bytes_performRead_mapped hsu huu hm.aligned (fun i hi => ?_) hn hfile hok
    exact (hlives i hi).1.mirrors hs' hw.unpinned (hshows i hi).1 (hshows i hi).2 (hlives i hi).2

theorem mmap_exact_two_pages_one_frame :
    ∃ m t trail u, m = .boot {} (.ofCapacity 1) (some (.ofCount 8)) [.ofList [170, 187]] ∧
      Reachable m ∧ m.Mappable 0 ⟨4096⟩ 5000 0 0 ∧
      Machine.mmap 0 ⟨4096⟩ 5000 false 0 0 m = .ok ⟨4096⟩ t ∧
      m.MapsFile 0 ⟨4096⟩ 5000 false 0 0 t ∧
      trail.map Prod.fst = [.claim 0 ⟨4096⟩, .alloc 0 .anon ⟨16384⟩ true none,
        .claim 0 ⟨16384⟩] ∧
      (∀ i < 2, Lives ⟨0, (⟨1⟩ : VirtPage).plus i⟩ t trail u) ∧
      ((Op.read 0 ⟨4096⟩ 4 ⟨0⟩).run u).1.bytes = [170, 187, 0, 0] := by
  have hstart : Starts (.boot {} (.ofCapacity 1) (some (.ofCount 8)) [.ofList [170, 187]]) :=
    ⟨{}, 1, some (.ofCount 8), [.ofList [170, 187]], by decide, by rintro d ⟨⟩; decide, rfl⟩
  have h : Reachable (.boot {} (.ofCapacity 1) (some (.ofCount 8)) [.ofList [170, 187]]) :=
    ⟨_, _, hstart, .nil _⟩
  generalize hm : Machine.boot {} (.ofCapacity 1) (some (.ofCount 8)) [.ofList [170, 187]] = m at h
  obtain ⟨hiff, hok, -⟩ := Reachable.mmap_exact h 0 ⟨4096⟩ 5000 false 0 0
  have hmap : ((Op.mmap 0 ⟨4096⟩ 5000 false 0 0).run m).1.failure = none := by
    rw [← hm]
    decide +kernel
  obtain ⟨r, hr⟩ := Machine.exists_ok_of_perform hmap
  obtain ⟨rfl, hmaps⟩ := hok r _ hr
  generalize ht : (Machine.perform (Machine.mmap 0 ⟨4096⟩ 5000 false 0 0) m).2 = t at hr hmaps
  have hthere {i : Nat} {v : Machine} (hi : i < 2)
      (hv : ∀ i < 2, (v.page? ⟨0, (⟨1⟩ : VirtPage).plus i⟩).isSome = true) :
      v.page? ⟨0, (⟨1⟩ : VirtPage).plus i⟩ ≠ none := Option.isSome_iff_ne_none.mp (hv i hi)
  have hlives (i : Nat) (hi : i < 2) : Lives ⟨0, (⟨1⟩ : VirtPage).plus i⟩ t
      [(.claim 0 ⟨4096⟩, _), (.alloc 0 .anon ⟨16384⟩ true none, _), (.claim 0 ⟨16384⟩, _)] _ :=
    .cons (hthere hi (by rw [← ht, ← hm]; decide +kernel)) trivial
      (.cons (hthere hi (by rw [← ht, ← hm]; decide +kernel)) trivial
        (.cons (hthere hi (by rw [← ht, ← hm]; decide +kernel)) trivial
          (.nil (hthere hi (by rw [← ht, ← hm]; decide +kernel)))))
  refine ⟨m, t, _, _, rfl, h, hiff.mp ⟨t, hr⟩, hr, hmaps, rfl, hlives, ?_⟩
  refine (hmaps.reads _ _ 4 ⟨0⟩ (fun i hi => ⟨hlives i hi, ?_⟩) (by decide) ?_ ?_).trans ?_
  · revert i
    rw [← ht, ← hm]
    decide +kernel
  · rw [← ht, ← hm]
    decide +kernel
  · rw [← ht, ← hm]
    decide +kernel
  · rw [← hm]
    decide +kernel

end Pager
