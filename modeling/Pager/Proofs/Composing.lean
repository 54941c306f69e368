import Pager.Proofs.Passing

namespace Pager

open Step

namespace Step

variable {σ α β : Type} (s : σ)

theorem pure_apply (a : α) : (pure a : Step σ α) s = .ok a s := rfl

theorem get_apply : (get : Step σ σ) s = .ok s s := rfl

theorem modify_apply (f : σ → σ) : (modify f : Step σ PUnit) s = .ok () (f s) := rfl

theorem bind_apply (x : Step σ α) (f : α → Step σ β) :
    (x >>= f) s = match x s with
      | .ok a t => f a t
      | .error e t => .error e t := by
  simp only [bind, EStateM.bind]
  cases x s <;> rfl

end Step

theorem Store.set_set {α : Type} [Inhabited α] (s : Store α) (i : Nat) (a b : α) :
    (s.set i a).set i b = s.set i b := by
  rw [set, set, set, mk.injEq]
  refine Std.ExtTreeMap.ext_getElem? fun {j} => ?_
  simp only [Std.ExtTreeMap.getElem?_insert]
  split <;> rfl

theorem PageTable.ext_get? {t u : PageTable} (h : ∀ v, t.get? v = u.get? v) : t = u := by
  obtain ⟨entries⟩ := t
  obtain ⟨entries'⟩ := u
  rw [mk.injEq]
  exact Std.ExtTreeMap.ext_getElem? fun {v} => h v

namespace Bytes

variable {n : Nat}

theorem splice_append (v : Vector UInt8 n) (i : Nat) (xs ys : List UInt8) :
    splice v i (xs ++ ys) = splice (splice v i xs) (i + xs.length) ys := by
  induction xs generalizing v i with
  | nil => rfl
  | cons x xs ih =>
      rw [List.cons_append, splice, ih, splice, List.length_cons, Nat.add_right_comm i 1,
        Nat.add_assoc]

theorem slice_append (v : Vector UInt8 n) {i k : Nat} (h : i + k ≤ n) (l : Nat) :
    slice v i (k + l) = slice v i k ++ slice v (i + k) l := by
  have hlen : (slice v i k).length = k := by
    rw [length_slice]
    omega
  apply List.ext_getElem?
  intro j
  rw [List.getElem?_append, hlen, getElem?_slice, getElem?_slice, getElem?_slice]
  by_cases hj : j < k
  · rw [if_pos (by omega), if_pos hj, if_pos hj]
  · rw [if_neg hj, show i + k + (j - k) = i + j by omega]
    by_cases hl : j < k + l
    · rw [if_pos hl, if_pos (by omega)]
    · rw [if_neg hl, if_neg (by omega)]

end Bytes

theorem Ram.store_store (r : Ram) (p : PhysPage) (b c : PageBytes) :
    (r.store p b).store p c = r.store p c := by
  rw [store, store, Array.setIfInBounds_setIfInBounds, ← store]

namespace Entry

theorem flags_set (e : Entry) (f : Flag) (on : Bool) :
    (e.set f on).flags = if on then e.flags ||| f.mask else e.flags &&& ~~~f.mask := by
  have hall : f.mask &&& Flag.union Flag.all = f.mask := by cases f <;> decide
  rw [set, flags_pack]
  apply BitVec.eq_of_getLsbD_eq
  intro i hi
  have hi' := congrArg (fun w => w.getLsbD i) hall
  simp only [BitVec.getLsbD_and] at hi'
  cases on <;> simp [flags, hi] <;> grind

theorem set_of_has (e : Entry) {f g : Flag} {on : Bool} (h : (e.set g on).has f = true) :
    (e.set g on).set f true = e.set g on := by
  have hw : (e.set g on).flags ||| f.mask = (e.set g on).flags := by
    apply BitVec.eq_of_getLsbD_eq
    intro i _
    rw [BitVec.getLsbD_or, Flag.getLsbD_mask]
    by_cases hi : i = f.bit
    · rw [hi, getLsbD_flags, h, Bool.true_or]
    · rw [decide_eq_false hi, Bool.or_false]
  rw [set, if_pos rfl, hw, page_set, flags_set, set]

end Entry

def PageTable.touched (t : PageTable) (v : VirtPage) (write : Bool) : PageTable :=
  if write then (t.set v .accessed true).set v .dirty true else t.set v .accessed true

namespace PageTable

variable (t : PageTable) (v w : VirtPage) (write : Bool)

theorem get?_touched : (t.touched v write).get? w = if v = w then (t.get? v).map (fun e =>
    if write then (e.set .accessed true).set .dirty true else e.set .accessed true)
      else t.get? w := by
  cases write with
  | false => exact get?_set ..
  | true =>
      simp only [touched, get?_set, if_true]
      split
      · exact Option.map_map ..
      · rfl

theorem touched_touched : (t.touched v write).touched v write = t.touched v write := by
  apply ext_get?
  intro w
  simp only [get?_touched, if_true]
  split
  · rw [Option.map_map]
    congr 1
    funext e
    cases write with
    | false => exact e.set_set .accessed true
    | true =>
        have ha : ((e.set .accessed true).set .dirty true).has .accessed = true := by
          simp [Entry.has_set]
        have hd : ((e.set .accessed true).set .dirty true).has .dirty = true := by
          simp [Entry.has_set]
        simp only [Function.comp_apply, if_true]
        rw [Entry.set_of_has _ ha, Entry.set_of_has _ hd]
  · rfl

end PageTable

theorem VirtAddr.add?_add {a b : VirtAddr} {n : Nat} (h : a.add? n = some b) (k : Nat) :
    a.add? (n + k) = b.add? k := by
  have hb := toNat_of_add? h
  cases hc : b.add? k with
  | none =>
      rw [add?_eq_none] at hc ⊢
      omega
  | some c =>
      cases hd : a.add? (n + k) with
      | none =>
          have := toNat_of_add? hc
          have := c.toNat_lt
          rw [add?_eq_none] at hd
          omega
      | some d =>
          have hcd : d.val.toNat = c.val.toNat := by
            have := toNat_of_add? hc
            have := toNat_of_add? hd
            simp only [toNat] at *
            omega
          exact congrArg some (congrArg mk (UInt64.toNat_inj.mp hcd))

namespace Machine

variable {m t : Machine} {s : SpaceId} {a b sp : VirtAddr} {p : PhysPage} {write : Bool}

theorem table_setTable (m : Machine) (s : SpaceId) (x : PageTable) :
    (m.setTable s x).table s = x := by
  rw [setTable, table, space_setSpace, if_pos rfl]

theorem setTable_setTable (m : Machine) (s : SpaceId) (x y : PageTable) :
    (m.setTable s x).setTable s y = m.setTable s y := by
  simp only [setTable, space_setSpace, if_true]
  simp only [setSpace, Store.set_set]

theorem mark_eq (m : Machine) (id : PageId) (write : Bool) :
    m.mark id write = m.setTable id.space ((m.table id.space).touched id.page write) := by
  cases write with
  | false => rfl
  | true =>
      change (m.setFlag id .accessed true).setFlag id .dirty true = _
      rw [setFlag, setFlag, table_setTable, setTable_setTable]
      rfl

theorem mark_mark (m : Machine) (id : PageId) (write : Bool) :
    (m.mark id write).mark id write = m.mark id write := by
  simp only [mark_eq, table_setTable, setTable_setTable, PageTable.touched_touched]

theorem mark_withRam (m : Machine) (id : PageId) (write : Bool) (r : Ram) :
    (m.withRam r).mark id write = (m.mark id write).withRam r := by
  cases write <;> rfl

theorem translate_mark (m : Machine) (s : SpaceId) (v : VirtPage) (write : Bool) :
    ((m.mark ⟨s, v⟩ write).table s).translate v = (m.table s).translate v := by
  simp only [mark_eq, table_setTable, PageTable.translate, PageTable.get?_touched, if_true,
    Option.map_map]
  congr 1
  funext e
  cases write <;> simp [Entry.page_set]

theorem hasFlag_mark (m : Machine) (id : PageId) (write : Bool) :
    (m.mark id write).hasFlag id .writable = m.hasFlag id .writable := by
  simp only [hasFlag, mark_eq, table_setTable, PageTable.has, PageTable.get?_touched, if_true,
    Option.any_map]
  congr 1
  funext e
  cases write <;> simp [Entry.has_set]

theorem touch_marks (n : Nat) :
    Ends (touch s a write sp n) m
      (fun p t => ∃ u : Machine, t = u.mark ⟨s, a.page⟩ write ∧
        (u.table s).translate a.page = some p ∧
        (write = true → u.hasFlag ⟨s, a.page⟩ .writable = true))
      (fun _ _ => True) := by
  induction n generalizing m with
  | zero => trivial
  | succ n ih =>
      have hagain (flags : FaultFlags) : Ends (do handleFault s a flags sp; touch s a write sp n) m
          (fun p t => ∃ u : Machine, t = u.mark ⟨s, a.page⟩ write ∧
            (u.table s).translate a.page = some p ∧
            (write = true → u.hasFlag ⟨s, a.page⟩ .writable = true))
          (fun _ _ => True) := by
        rw [ends_bind]
        exact (ends_self _ m).mono (fun _ _ _ => ih) fun _ _ _ => trivial
      rw [touch, ends_bind, ends_get]
      cases hp : (m.table s).translate a.page with
      | none => exact hagain _
      | some p =>
          dsimp only
          split
          next hw =>
            rw [ends_bind, ends_modify, ends_pure]
            exact ⟨m, rfl, hp, by rintro rfl; simpa using hw⟩
          next => exact hagain _

/-- The page of an access that has just been allowed can be accessed again. This
changes nothing, whatever is in memory. -/
theorem touch_again {n : Nat} (h : touch s a write sp n m = .ok p t) (hb : b.page = a.page)
    (r : Ram) : touch s b write sp retries (t.withRam r) = .ok p (t.withRam r) := by
  obtain ⟨u, rfl, hp, hw⟩ := (touch_marks n).of_ok h
  have hp' : (((u.mark ⟨s, a.page⟩ write).withRam r).table s).translate a.page = some p :=
    (translate_mark u s a.page write).trans hp
  have hw' : (!write || ((u.mark ⟨s, a.page⟩ write).withRam r).hasFlag ⟨s, a.page⟩ .writable) =
      true := by
    change (!write || (u.mark ⟨s, a.page⟩ write).hasFlag ⟨s, a.page⟩ .writable) = true
    rw [hasFlag_mark]
    cases write <;> simp_all
  have hm : ((u.mark ⟨s, a.page⟩ write).withRam r).mark ⟨s, a.page⟩ write =
      (u.mark ⟨s, a.page⟩ write).withRam r := by
    rw [mark_withRam, mark_mark]
  rw [retries, touch]
  simp only [hb, bind_apply, get_apply, hp', hw', if_true, modify_apply, pure_apply, hm]

theorem readFrame_eq (h : Ram.InRange m.ram.capacity p) :
    readFrame p m = .ok (m.ram.bytes p) m := by
  change ofExcept (m.ram.read p) m = _
  rw [Ram.read_eq h]
  rfl

theorem writeFrame_eq (h : Ram.InRange m.ram.capacity p) (c : PageBytes) :
    writeFrame p c m = .ok () (m.withRam (m.ram.store p c)) := by
  change EStateM.bind (ofExcept (m.ram.write p c)) _ m = _
  rw [Ram.write_eq h]
  rfl

theorem exists_readFrame_error (h : ¬Ram.InRange m.ram.capacity p) :
    ∃ e, readFrame p m = .error e m := by
  obtain ⟨e, he⟩ : ∃ e, m.ram.index p = .error e := by
    rw [Ram.index]
    by_cases hf : p.toNat < Ram.firstPage
    · exact ⟨_, if_pos hf⟩
    · exact ⟨_, (if_neg hf).trans (if_neg fun hc => h ⟨by omega, by omega⟩)⟩
  refine ⟨.panic e, ?_⟩
  change ofExcept (m.ram.read p) m = _
  rw [Ram.read, he]
  rfl

theorem writePiece_append {xs : List UInt8} (hb : b.page = a.page)
    (ho : b.offset = a.offset + xs.length) (ys : List UInt8) :
    writePiece s a sp (xs ++ ys) = (do writePiece s a sp xs; writePiece s b sp ys) := by
  funext m
  simp only [writePiece, bind_apply]
  cases ht : touch s a true sp retries m with
  | error => rfl
  | ok p t =>
      by_cases hr : Ram.InRange t.ram.capacity p
      · obtain ⟨u, hu⟩ : ∃ u : Machine,
            u = t.withRam (t.ram.store p (Bytes.splice (t.ram.bytes p) a.offset xs)) := ⟨_, rfl⟩
        have hram : u.ram = t.ram.store p (Bytes.splice (t.ram.bytes p) a.offset xs) := by
          rw [hu, withRam]
        have hr' : Ram.InRange u.ram.capacity p := by rwa [hram, Ram.capacity_store]
        have hbytes : u.ram.bytes p = Bytes.splice (t.ram.bytes p) a.offset xs := by
          rw [hram, Ram.bytes_store hr, Function.update_self]
        have hstore (c : PageBytes) :
            u.withRam (u.ram.store p c) = t.withRam (t.ram.store p c) := by
          rw [hram, Ram.store_store, hu, withRam, withRam]
          rfl
        have hag : touch s b true sp retries u = .ok p u := by
          rw [hu]
          exact touch_again ht hb _
        simp only [readFrame_eq hr, writeFrame_eq hr, ← hu, hag, readFrame_eq hr', hbytes,
          writeFrame_eq hr', hstore, ho, Bytes.splice_append]
      · obtain ⟨e, he⟩ := exists_readFrame_error hr
        simp only [he]

def gather (s : SpaceId) (a sp : VirtAddr) (n : Nat) : Step (Machine × List UInt8) Unit := do
  let bs ← Step.zoom Prod.fst (fun m x => (m, x.2)) id (readPiece s a sp n)
  modify (fun x => (x.1, x.2 ++ bs))

theorem gather_append {n : Nat} (hb : b.page = a.page) (ho : b.offset = a.offset + n) (k : Nat) :
    gather s a sp (n + k) = (do gather s a sp n; gather s b sp k) := by
  funext x
  obtain ⟨m, acc⟩ := x
  simp only [gather, readPiece, bind_apply, zoom]
  cases ht : touch s a false sp retries m with
  | error => rfl
  | ok p t =>
      by_cases hr : Ram.InRange t.ram.capacity p
      · have hle : a.offset + n ≤ pageSize := ho ▸ b.offset_lt.le
        have hag : touch s b false sp retries t = .ok p t := touch_again ht hb t.ram
        simp only [readFrame_eq hr, pure_apply, modify_apply, hag, ho, Bytes.slice_append _ hle,
          List.append_assoc]
      · obtain ⟨e, he⟩ := exists_readFrame_error hr
        simp only [he]

variable {k : Nat} {cur : VirtAddr}

theorem inPage_of_le {n l : Nat} (h : inPage a (n + l) ≤ n) : inPage a n = inPage a (n + l) := by
  unfold inPage at *
  omega

theorem inPage_of_lt {n l : Nat} (h : n < inPage a (n + l)) : inPage a n = n := by
  unfold inPage at *
  omega

theorem exists_rest {n l : Nat} (ha : a.add? k = some cur) (h : n < inPage cur (n + l)) :
    ∃ b : VirtAddr, a.add? (k + n) = some b ∧ b.page = cur.page ∧ b.offset = cur.offset + n ∧
      inPage cur (n + l) = n + inPage b l := by
  obtain ⟨b, hb, hpage⟩ := VirtAddr.add?_inPage ha h
  have ho : b.offset = cur.offset + n := by
    refine (VirtAddr.page_eq_of_offset ?_ ?_).2
    · rw [VirtAddr.toNat_of_add? hb, VirtAddr.toNat_of_add? ha, Nat.add_assoc]
    · unfold inPage at h
      omega
  refine ⟨b, hb, hpage, ho, ?_⟩
  unfold inPage at *
  omega

theorem writeFrom_nil (k : Nat) : writeFrom s a sp k [] = pure () := by
  rw [writeFrom, dif_pos rfl]

theorem readFrom_zero (k : Nat) : readFrom s a sp k 0 = pure () := by
  rw [readFrom, dif_pos rfl]

theorem writeFrom_eq {data : List UInt8} (hd : data ≠ []) (ha : a.add? k = some cur) :
    writeFrom s a sp k data = (do
      writePiece s cur sp (data.take (inPage cur data.length))
      writeFrom s a sp (k + inPage cur data.length) (data.drop (inPage cur data.length))) := by
  rw [writeFrom, dif_neg hd, ha]

theorem readFrom_eq {len : Nat} (hd : len ≠ 0) (ha : a.add? k = some cur) :
    readFrom s a sp k len = (do
      gather s cur sp (inPage cur len)
      readFrom s a sp (k + inPage cur len) (len - inPage cur len)) := by
  rw [readFrom, dif_neg hd, ha, gather, bind_assoc]

theorem writeFrom_append (k : Nat) (xs ys : List UInt8) :
    writeFrom s a sp k (xs ++ ys) =
      (do writeFrom s a sp k xs; writeFrom s a sp (k + xs.length) ys) := by
  fun_induction writeFrom s a sp k xs with
  | case1 k => rw [List.nil_append, List.length_nil, Nat.add_zero, pure_bind]
  | case2 k xs hd ha =>
      rw [writeFrom, dif_neg (by simp [hd]), ha]
      rfl
  | case3 k xs hd cur ha ih =>
      rw [writeFrom_eq (by simp [hd]) ha, bind_assoc]
      by_cases hle : inPage cur (xs ++ ys).length ≤ xs.length
      · rw [List.length_append] at hle ⊢
        rw [List.take_append_of_le_length hle, List.drop_append_of_le_length hle,
          ← inPage_of_le hle, ih, List.length_drop, Nat.add_assoc, Nat.add_sub_of_le]
        exact inPage_le ..
      · rw [List.length_append, Nat.not_le] at hle
        obtain ⟨b, hb, hpage, ho, hc⟩ := exists_rest ha hle
        have hys : ys ≠ [] := by
          rintro rfl
          exact absurd hle (Nat.not_lt.mpr (inPage_le ..))
        rw [List.length_append, hc, inPage_of_lt hle, List.take_length, List.drop_length,
          List.take_length_add_append, List.drop_length_add_append, writePiece_append hpage ho,
          bind_assoc, writeFrom_nil, pure_bind, writeFrom_eq hys hb, Nat.add_assoc]

theorem readFrom_append (k n l : Nat) :
    readFrom s a sp k (n + l) = (do readFrom s a sp k n; readFrom s a sp (k + n) l) := by
  induction k, n using readFrom.induct a with
  | case1 k => rw [Nat.zero_add, Nat.add_zero, readFrom_zero, pure_bind]
  | case2 k n hd ha =>
      rw [readFrom, dif_neg (by omega), readFrom, dif_neg hd, ha]
      rfl
  | case3 k n hd cur ha ih =>
      rw [readFrom_eq (by omega) ha, readFrom_eq hd ha, bind_assoc]
      by_cases hle : inPage cur (n + l) ≤ n
      · rw [← inPage_of_le hle, Nat.sub_add_comm (inPage_le ..), ih, Nat.add_assoc,
          Nat.add_sub_of_le (inPage_le ..)]
      · obtain ⟨b, hb, hpage, ho, hc⟩ := exists_rest ha (Nat.not_le.mp hle)
        have hl : l ≠ 0 := by
          rintro rfl
          exact hle (inPage_le ..)
        rw [hc, inPage_of_lt (Nat.not_le.mp hle), Nat.sub_self, Nat.add_sub_add_left,
          gather_append hpage ho, bind_assoc, readFrom_zero, pure_bind, readFrom_eq hl hb,
          Nat.add_assoc]

theorem writeFrom_add {n : Nat} (hb : a.add? n = some b) (k : Nat) (data : List UInt8) :
    writeFrom s a sp (n + k) data = writeFrom s b sp k data := by
  induction k, data using writeFrom.induct b with
  | case1 k => rw [writeFrom_nil, writeFrom_nil]
  | case2 k data hd ha =>
      rw [writeFrom, dif_neg hd, VirtAddr.add?_add hb, ha, writeFrom, dif_neg hd, ha]
  | case3 k data hd cur ha ih =>
      rw [writeFrom_eq hd ha, writeFrom_eq hd ((VirtAddr.add?_add hb k).trans ha), Nat.add_assoc,
        ih]

theorem readFrom_add {n : Nat} (hb : a.add? n = some b) (k len : Nat) :
    readFrom s a sp (n + k) len = readFrom s b sp k len := by
  induction k, len using readFrom.induct b with
  | case1 k => rw [readFrom_zero, readFrom_zero]
  | case2 k len hd ha =>
      rw [readFrom, dif_neg hd, VirtAddr.add?_add hb, ha, readFrom, dif_neg hd, ha]
  | case3 k len hd cur ha ih =>
      rw [readFrom_eq hd ha, readFrom_eq hd ((VirtAddr.add?_add hb k).trans ha), Nat.add_assoc,
        ih]

theorem writeUser_append {xs : List UInt8} (hb : a.add? xs.length = some b) (ys : List UInt8) :
    writeUser s a (xs ++ ys) sp = (do writeUser s a xs sp; writeUser s b ys sp) := by
  rw [writeUser, writeFrom_append, Nat.zero_add, ← Nat.add_zero xs.length, writeFrom_add hb]
  rfl

theorem readUser_add {n : Nat} (hb : a.add? n = some b) (k : Nat) :
    readUser s a (n + k) sp = (do readUser s a n sp; readUser s b k sp) := by
  rw [readUser, readFrom_append, Nat.zero_add, ← Nat.add_zero n, readFrom_add hb]
  rfl

/-- An access of `len` bytes is through with `n` of them in `u`. The next one is
at `b`, the first in a page that cannot be touched. -/
structure BreaksOff (s : SpaceId) (a sp : VirtAddr) (write : Bool) (k len n : Nat) (b : VirtAddr)
    (u : Machine) (f : Failure) (t : Machine) : Prop where
  short : n < len
  next : a.add? (k + n) = some b
  edge : n = 0 ∨ b.aligned = true
  fails : touch s b write sp retries u = .error f t

namespace BreaksOff

variable {len n : Nat} {u : Machine} {f : Failure}

theorem at_once (hlen : 0 < len) (ha : a.add? k = some cur)
    (h : touch s cur write sp retries m = .error f t) :
    BreaksOff s a sp write k len 0 cur m f t := ⟨hlen, ha, .inl rfl, h⟩

theorem after (ha : a.add? k = some cur)
    (h : BreaksOff s a sp write (k + inPage cur len) (len - inPage cur len) n b u f t) :
    BreaksOff s a sp write k len (inPage cur len + n) b u f t where
  short := by
    have := h.short
    omega
  next := by rw [← Nat.add_assoc, h.next]
  edge := by
    refine .inr (h.edge.elim ?_ id)
    rintro rfl
    have hlt := h.short
    have hb := VirtAddr.toNat_of_add? h.next
    have hcur := VirtAddr.toNat_of_add? ha
    have hoff := cur.offset_lt
    rw [VirtAddr.aligned, beq_iff_eq]
    unfold inPage VirtAddr.offset pageSize at *
    omega
  fails := h.fails

end BreaksOff

theorem inPage_inPage (a : VirtAddr) (n : Nat) : inPage a (inPage a n) = inPage a n := by
  unfold inPage
  omega

theorem writeFrom_piece {data : List UInt8} (hd : data ≠ []) (ha : a.add? k = some cur) :
    writeFrom s a sp k (data.take (inPage cur data.length)) =
      writePiece s cur sp (data.take (inPage cur data.length)) := by
  have hlen : (data.take (inPage cur data.length)).length = inPage cur data.length :=
    List.length_take_of_le (inPage_le ..)
  have hpos := inPage_pos cur (List.length_pos_iff.mpr hd)
  have hne : data.take (inPage cur data.length) ≠ [] :=
    List.ne_nil_of_length_pos (by rwa [hlen])
  rw [writeFrom_eq hne ha, hlen, inPage_inPage, List.take_take, Nat.min_self, List.drop_take,
    Nat.sub_self, List.take_zero, writeFrom_nil]
  exact bind_pure_unit

theorem readFrom_piece {len : Nat} (hd : len ≠ 0) (ha : a.add? k = some cur) :
    readFrom s a sp k (inPage cur len) = gather s cur sp (inPage cur len) := by
  have hpos := inPage_pos cur (Nat.pos_of_ne_zero hd)
  rw [readFrom_eq hpos.ne' ha, inPage_inPage, Nat.sub_self, readFrom_zero]
  exact bind_pure_unit

theorem writePiece_stops (hs : m.layout.Sound) (hu : m.layout.Unpinned) (bs : List UInt8) :
    Ends (writePiece s a sp bs) m (fun _ t => t.layout.Sound ∧ t.layout.Unpinned)
      (fun f t => touch s a true sp retries m = .error f t) := by
  have hgood : Ends (writePiece s a sp bs) m (fun _ t => t.layout.Sound ∧ t.layout.Unpinned)
      (fun _ _ => True) := by
    refine (writePiece_ends hs hu bs).mono ?_ fun _ _ _ => trivial
    rintro _ t ⟨cs, -, hw⟩
    exact ⟨hs.of_course hw.course, hw.unpinned⟩
  have hstop : Ends (writePiece s a sp bs) m (fun _ _ => True)
      (fun f t => touch s a true sp retries m = .error f t) := by
    simp only [writePiece, ends_bind]
    refine ((touch_ends hs hu true 0).and (ends_self _ m)).mono ?_ fun f t h => h.2
    rintro p t ⟨⟨cs, l, -, hw, page, f, hmap, -, hl⟩, -⟩
    have hr := inRange_touched hs hw hmap hl
    rw [ends_readFrame hr, ends_writeFrame hr]
    trivial
  exact (hgood.and hstop).mono (fun _ _ h => h.1) fun _ _ h => h.2

theorem readPiece_stops (hs : m.layout.Sound) (hu : m.layout.Unpinned) (n : Nat) :
    Ends (readPiece s a sp n) m (fun _ _ => True)
      (fun f t => touch s a false sp retries m = .error f t) := by
  simp only [readPiece, ends_bind]
  refine ((touch_ends hs hu false 0).and (ends_self _ m)).mono ?_ fun f t h => h.2
  rintro p t ⟨⟨cs, l, -, hw, page, f, hmap, -, hl⟩, -⟩
  have hr := inRange_touched hs hw hmap hl
  rw [ends_readFrame hr]
  trivial

theorem gather_stops (hs : m.layout.Sound) (hu : m.layout.Unpinned) {n : Nat}
    (hn : a.offset + n ≤ pageSize) (acc : List UInt8) :
    Ends (gather s a sp n) (m, acc)
      (fun _ t => t.1.layout.Sound ∧ t.1.layout.Unpinned ∧ t.2.length = acc.length + n)
      (fun f t => touch s a false sp retries m = .error f t.1 ∧ t.2 = acc) := by
  rw [gather, ends_bind, ends_zoom]
  refine ((readPiece_ends hs hu n).and (readPiece_stops hs hu n)).mono ?_ fun f t h => ⟨h.2, rfl⟩
  rintro bs t ⟨⟨cs, -, hw, page, f, p, -, rfl⟩, -⟩
  refine ⟨hs.of_course hw.course, hw.unpinned, ?_⟩
  simp only [List.length_append, Bytes.length_slice]
  omega

/-- A write that fails has stored what comes before the page that cannot be
touched, and nothing else. -/
theorem writeFrom_stops (hs : m.layout.Sound) (hu : m.layout.Unpinned) (k : Nat)
    (data : List UInt8) (hlt : a.toNat + k + data.length < wordBound) :
    Ends (writeFrom s a sp k data) m (fun _ _ => True)
      (fun f t => ∃ n b u, BreaksOff s a sp true k data.length n b u f t ∧
        writeFrom s a sp k (data.take n) m = .ok () u) := by
  induction k, data using writeFrom.induct a generalizing m with
  | case1 k =>
      rw [writeFrom_nil]
      trivial
  | case2 k data hd ha =>
      rw [VirtAddr.add?_eq_none] at ha
      omega
  | case3 k data hd cur ha ih =>
      have hdrop : (data.drop (inPage cur data.length)).length =
          data.length - inPage cur data.length := List.length_drop
      have hle := inPage_le cur data.length
      rw [writeFrom_eq hd ha, ends_bind]
      refine ((writePiece_stops hs hu _).and (ends_self _ m)).mono ?_ ?_
      · rintro _ t ⟨⟨hs', hu'⟩, hx⟩
        refine (ih hs' hu' (by omega)).mono (fun _ _ _ => trivial) ?_
        rintro f v ⟨n, b, u, hstop, hok⟩
        rw [hdrop] at hstop
        refine ⟨_, b, u, hstop.after ha, ?_⟩
        have hlen : (data.take (inPage cur data.length)).length = inPage cur data.length :=
          List.length_take_of_le hle
        rw [List.take_add, writeFrom_append, hlen, writeFrom_piece hd ha]
        simp only [bind_apply, hx, hok]
      · rintro f t ⟨hf, -⟩
        refine ⟨0, cur, m, .at_once (List.length_pos_iff.mpr hd) ha hf, ?_⟩
        rw [List.take_zero, writeFrom_nil]
        rfl

/-- A read that fails has got what comes before the page that cannot be touched,
and nothing else. -/
theorem readFrom_stops (hs : m.layout.Sound) (hu : m.layout.Unpinned) (k len : Nat)
    (acc : List UInt8) (hlt : a.toNat + k + len < wordBound) :
    Ends (readFrom s a sp k len) (m, acc) (fun _ _ => True)
      (fun f t => ∃ n b u, BreaksOff s a sp false k len n b u f t.1 ∧
        readFrom s a sp k n (m, acc) = .ok () (u, t.2) ∧ t.2.length = acc.length + n) := by
  induction k, len using readFrom.induct a generalizing m acc with
  | case1 k =>
      rw [readFrom_zero]
      trivial
  | case2 k len hd ha =>
      rw [VirtAddr.add?_eq_none] at ha
      omega
  | case3 k len hd cur ha ih =>
      have hle := inPage_le cur len
      have hin : cur.offset + inPage cur len ≤ pageSize := by
        have := cur.offset_lt
        unfold inPage
        omega
      rw [readFrom_eq hd ha, ends_bind]
      refine ((gather_stops hs hu hin acc).and (ends_self _ (m, acc))).mono ?_ ?_
      · rintro _ ⟨t, bs⟩ ⟨⟨hs', hu', hlen⟩, hx⟩
        refine (ih hs' hu' bs (by omega)).mono (fun _ _ _ => trivial) ?_
        rintro f v ⟨n, b, u, hstop, hok, hn⟩
        refine ⟨_, b, u, hstop.after ha, ?_, ?_⟩
        · rw [readFrom_append, readFrom_piece hd ha]
          simp only [bind_apply, hx, hok]
        · rw [hn, hlen, Nat.add_assoc]
      · rintro f ⟨t, bs⟩ ⟨⟨hf, rfl⟩, -⟩
        refine ⟨0, cur, m, .at_once (Nat.pos_of_ne_zero hd) ha hf, ?_, rfl⟩
        rw [readFrom_zero]
        rfl

theorem exists_error_of_performRead {len : Nat} {f : Failure}
    (h : (performRead s a len sp m).1.failure = some f) :
    ∃ t, readUser s a len sp (m, []) = .error f (t, (performRead s a len sp m).1.bytes) := by
  unfold performRead at h ⊢
  cases hx : readUser s a len sp (m, []) with
  | ok u t => simp [hx] at h
  | error f' t =>
      simp only [hx, Option.some.injEq] at h
      exact ⟨t.1, by rw [h]⟩

end Machine

theorem VirtAddr.exists_add? {a : VirtAddr} {n : Nat} (h : a.toNat + n < wordBound) :
    ∃ b, a.add? n = some b := by
  rw [← Option.ne_none_iff_exists', Ne, add?_eq_none]
  omega

end Pager
