import Pager.Proofs.Holds
import Pager.Proofs.Invariance

namespace Pager

/-- The last byte that was written to each place of each file, if there is one. -/
abbrev Ledger := FileId → Nat → Option UInt8

def Segment.Takes (g : Segment) (start n : Nat) (f : FileId) (i : Nat) : Prop :=
  g.file = f ∧ g.offset + start ≤ i ∧ i < g.offset + min g.length (start + n)

instance (g : Segment) (start n : Nat) (f : FileId) (i : Nat) : Decidable (g.Takes start n f i) :=
  inferInstanceAs (Decidable (_ ∧ _ ∧ _))

theorem Segment.Takes.covers {g : Segment} {start n : Nat} {f : FileId} {i : Nat}
    (h : g.Takes start n f i) : g.Covers f i := by
  obtain ⟨hf, hi, hn⟩ := h
  exact ⟨hf, by omega, by omega⟩

namespace Ledger

variable {ρ : Ledger} {o : FileId → Array UInt8} {g : Segment} {start i : Nat} {bs : List UInt8}
  {f : FileId}

def due (ρ : Ledger) (o : FileId → Array UInt8) (f : FileId) (i : Nat) : Option UInt8 :=
  (ρ f i).or (o f)[i]?

/-- Bytes were stored in a page of the segment. Those behind the segment are
not the file's. -/
def put (ρ : Ledger) (g : Segment) (start : Nat) (bs : List UInt8) : Ledger := fun f i =>
  if g.Takes start bs.length f i then bs[i - (g.offset + start)]? else ρ f i

def note (ρ : Ledger) (segment? : PageId → Option Segment) (x : Piece) : Ledger :=
  match segment? x.id with
  | none => ρ
  | some g => ρ.put g x.start x.bytes

def notes (ρ : Ledger) (segment? : PageId → Option Segment) (xs : List Piece) : Ledger :=
  xs.foldl (fun ρ x => ρ.note segment? x) ρ

theorem put_other (h : ¬g.Takes start bs.length f i) : ρ.put g start bs f i = ρ f i := if_neg h

theorem exists_put (h : g.Takes start bs.length f i) : ∃ b, ρ.put g start bs f i = some b ∧
    bs[i - (g.offset + start)]? = some b := by
  have hlt : i - (g.offset + start) < bs.length := by
    obtain ⟨-, hi, hn⟩ := h
    omega
  refine ⟨bs[i - (g.offset + start)], ?_, List.getElem?_eq_getElem hlt⟩
  rw [put, if_pos h, List.getElem?_eq_getElem hlt]

theorem due_put (h : g.Takes start bs.length f i) :
    (ρ.put g start bs).due o f i = bs[i - (g.offset + start)]? := by
  obtain ⟨b, hb, hget⟩ := exists_put (ρ := ρ) h
  rw [due, hb, hget, Option.some_or]

theorem due_put_other (h : ¬g.Takes start bs.length f i) :
    (ρ.put g start bs).due o f i = ρ.due o f i := by
  rw [due, due, put_other h]

theorem due_splice {b : PageBytes} {j : Nat} (hj : j < g.length)
    (hb : b[j]? = ρ.due o g.file (g.offset + j)) :
    (Bytes.splice b start bs)[j]? = (ρ.put g start bs).due o g.file (g.offset + j) := by
  have hlen := g.length_le
  rw [Bytes.getElem?_splice]
  by_cases hin : start ≤ j ∧ j < start + bs.length ∧ j < pageSize
  · have ht : g.Takes start bs.length g.file (g.offset + j) := ⟨rfl, by omega, by omega⟩
    rw [if_pos hin, due_put ht, Nat.add_sub_add_left]
  · rw [if_neg hin, hb, due_put_other]
    intro h
    obtain ⟨-, hlo, hhi⟩ := h
    omega

end Ledger

namespace Layout

variable {l l' : Layout} {o : FileId → Array UInt8} {ρ : Ledger} {id : PageId} {x : Hold}
  {f : FileId} {i k : Nat} {g : Segment} {p : PhysPage} {c : Change} {cs : List Change}

/-- Every byte that is due is in its file, or in a dirty page that has it. -/
structure Kept (o : FileId → Array UInt8) (ρ : Ledger) (l : Layout) : Prop where
  size : ∀ f, (l.data f).size = (o f).size
  file : ∀ f i, (l.data f)[i]? = ρ.due o f i ∨
    ρ f i ≠ none ∧ ∃ id x, l.hold? id = some x ∧ x.dirty = true ∧ x.segment.Covers f i
  frame : ∀ id x, l.hold? id = some x → x.segment.Fits (l.data x.segment.file).size ∧
    ∀ j < x.segment.length,
      (l.bytes x.phys)[j]? = ρ.due o x.segment.file (x.segment.offset + j)

theorem size_spill (f : FileId) : (l.spill g p k f).size = (l.data f).size := by
  rw [spill, Function.update_apply]
  split
  next h => rw [h, Segment.size_spill]
  next => rfl

theorem spill_other (h : ¬(g.Covers f i ∧ i < g.offset + k)) :
    (l.spill g p k f)[i]? = (l.data f)[i]? := by
  rw [spill, Function.update_apply]
  split
  next hf =>
    subst hf
    rw [Segment.getElem?_spill, if_neg]
    intro h
    obtain ⟨hi, hk, -⟩ := h
    exact h ⟨⟨rfl, hi, by omega⟩, by omega⟩
  next => rfl

namespace Kept

theorem spill_eq (h : Kept o ρ l) (hx : l.hold? id = some x) (hc : x.segment.Covers f i)
    (hi : i < x.segment.offset + k) : (l.spill x.segment x.phys k f)[i]? = ρ.due o f i := by
  obtain ⟨hf, hlo, hhi⟩ := hc
  subst hf
  obtain ⟨hfit, hb⟩ := h.frame id x hx
  have hsize : i < (l.data x.segment.file).size := by
    unfold Segment.Fits at hfit
    omega
  rw [spill, Function.update_self, Segment.getElem?_spill, if_pos ⟨hlo, by omega, hsize⟩,
    hb _ (by omega), Nat.add_sub_cancel' hlo]

theorem congr (h : Kept o ρ l) (hh : l'.hold? = l.hold?) (hd : l'.data = l.data)
    (hb : ∀ id x, l.hold? id = some x → l'.bytes x.phys = l.bytes x.phys) : Kept o ρ l' where
  size := by
    rw [hd]
    exact h.size
  file := by
    rw [hh, hd]
    exact h.file
  frame id x hx := by
    rw [hh] at hx
    rw [hd, hb id x hx]
    exact h.frame id x hx

theorem leave (h : Kept o ρ l) (hx : l.hold? id = some x)
    (hh : l'.hold? = Function.update l.hold? id none) (hb : l'.bytes = l.bytes)
    (hd : l'.data = if x.dirty then l.spill x.segment x.phys x.segment.length else l.data) :
    Kept o ρ l' := by
  have hsize (f : FileId) : (l'.data f).size = (l.data f).size := by
    rw [hd]
    split
    next => exact size_spill f
    next => rfl
  have hother {k : PageId} {y : Hold} (hk : k ≠ id) (hy : l.hold? k = some y) :
      l'.hold? k = some y := by
    rw [hh, Function.update_of_ne hk, hy]
  refine ⟨fun f => (hsize f).trans (h.size f), fun f i => ?_, fun k y hy => ?_⟩
  · by_cases hc : x.dirty = true ∧ x.segment.Covers f i
    · left
      rw [hd, if_pos hc.1]
      exact h.spill_eq hx hc.2 hc.2.2.2
    · have hdata : (l'.data f)[i]? = (l.data f)[i]? := by
        rw [hd]
        split
        next hdirty => exact spill_other fun hcov => hc ⟨hdirty, hcov.1⟩
        next => rfl
      rw [hdata]
      rcases h.file f i with hfile | ⟨hρ, k, y, hy, hdirty, hcov⟩
      · exact .inl hfile
      · refine .inr ⟨hρ, k, y, hother ?_ hy, hdirty, hcov⟩
        rintro rfl
        obtain rfl : x = y := Option.some.inj (hx.symm.trans hy)
        exact hc ⟨hdirty, hcov⟩
  · rw [hh, Function.update_apply] at hy
    split at hy
    next => cases hy
    next =>
      rw [hsize, hb]
      exact h.frame k y hy

theorem spoil (h : Kept o ρ l) (hx : l.hold? id = some x) (hh : l'.hold? = l.hold?)
    (hb : l'.bytes = l.bytes) (hd : l'.data = l.spill x.segment x.phys k) : Kept o ρ l' := by
  have hsize (f : FileId) : (l'.data f).size = (l.data f).size := by
    rw [hd, size_spill]
  refine ⟨fun f => (hsize f).trans (h.size f), fun f i => ?_, fun j y hy => ?_⟩
  · by_cases hc : x.segment.Covers f i ∧ i < x.segment.offset + k
    · left
      rw [hd]
      exact h.spill_eq hx hc.1 hc.2
    · rw [hh, hd, spill_other hc]
      exact h.file f i
  · rw [hh] at hy
    rw [hsize, hb]
    exact h.frame j y hy

theorem enter (h : Kept o ρ l) (ha : l.Apart) (hn : l.hold? id = none)
    (hg : l.segment? id = some g) (hfit : g.Fits (l.data g.file).size)
    (hh : l'.hold? = Function.update l.hold? id (some ⟨g, p, false⟩)) (hd : l'.data = l.data)
    (hp : l'.bytes p = g.image (l.data g.file))
    (hb : ∀ id x, l.hold? id = some x → l'.bytes x.phys = l.bytes x.phys) : Kept o ρ l' := by
  refine ⟨fun f => by rw [hd]; exact h.size f, fun f i => ?_, fun k y hy => ?_⟩
  · rw [hd]
    rcases h.file f i with hfile | ⟨hρ, k, y, hy, hdirty, hcov⟩
    · exact .inl hfile
    · refine .inr ⟨hρ, k, y, ?_, hdirty, hcov⟩
      rw [hh, Function.update_of_ne, hy]
      rintro rfl
      rw [hn] at hy
      cases hy
  · rw [hh, Function.update_apply] at hy
    split at hy
    next =>
      obtain rfl := Option.some.inj hy
      rw [hd]
      refine ⟨hfit, fun j hj => ?_⟩
      rw [hp, Segment.getElem?_image hfit hj]
      rcases h.file g.file (g.offset + j) with hfile | ⟨-, k, y, hy, -, hcov⟩
      · exact hfile
      · have hk := ha id k g y.segment g.file (g.offset + j) hg (segment?_of_hold? hy)
          ⟨rfl, Nat.le_add_right .., Nat.add_lt_add_left hj _⟩ hcov
        rw [← hk, hn] at hy
        cases hy
    next =>
      rw [hd, hb k y hy]
      exact h.frame k y hy

theorem of_shifts (h : Kept o ρ l) (ha : l.Apart) (hm : l.Shifts l') : Kept o ρ l' := by
  cases hm with
  | same hh hd hb => exact h.congr hh hd hb
  | leave id x hx hh hb hd => exact h.leave hx hh hb hd
  | spoil id x k hx hdirty hh hb hd => exact h.spoil hx hh hb hd
  | enter id g p hn hg hfit hh hd hp hb => exact h.enter ha hn hg hfit hh hd hp hb

theorem store {start : Nat} {bs : List UInt8} (h : Kept o ρ l) (ha : l.Apart)
    (hx : l.hold? id = some x)
    (hh : l'.hold? = Function.update l.hold? id (some { x with dirty := true }))
    (hd : l'.data = l.data) (hp : l'.bytes x.phys = Bytes.splice (l.bytes x.phys) start bs)
    (hb : ∀ k y, k ≠ id → l.hold? k = some y → l'.bytes y.phys = l.bytes y.phys) :
    Kept o (ρ.put x.segment start bs) l' := by
  have hself : l'.hold? id = some { x with dirty := true } := by rw [hh, Function.update_self]
  have hother {k : PageId} (hk : k ≠ id) : l'.hold? k = l.hold? k := by
    rw [hh, Function.update_of_ne hk]
  refine ⟨fun f => by rw [hd]; exact h.size f, fun f i => ?_, fun k y hy => ?_⟩
  · rw [hd]
    by_cases ht : x.segment.Takes start bs.length f i
    · obtain ⟨b, hput, -⟩ := Ledger.exists_put (ρ := ρ) ht
      exact .inr ⟨by simp [hput], id, _, hself, rfl, ht.covers⟩
    · rw [Ledger.due_put_other ht, Ledger.put_other ht]
      rcases h.file f i with hfile | ⟨hρ, k, y, hy, hdirty, hcov⟩
      · exact .inl hfile
      · by_cases hk : k = id
        · subst hk
          obtain rfl : x = y := Option.some.inj (hx.symm.trans hy)
          exact .inr ⟨hρ, k, _, hself, rfl, hcov⟩
        · exact .inr ⟨hρ, k, y, (hother hk).trans hy, hdirty, hcov⟩
  · rw [hd]
    by_cases hk : k = id
    · subst hk
      obtain rfl : { x with dirty := true } = y := Option.some.inj (hself.symm.trans hy)
      obtain ⟨hfit, hdue⟩ := h.frame k x hx
      refine ⟨hfit, fun j (hj : j < x.segment.length) => ?_⟩
      change (l'.bytes x.phys)[j]? = (ρ.put x.segment start bs).due o _ (x.segment.offset + j)
      rw [hp]
      exact Ledger.due_splice hj (hdue j hj)
    · rw [hother hk] at hy
      rw [hb k y hk hy]
      obtain ⟨hfit, hdue⟩ := h.frame k y hy
      refine ⟨hfit, fun j hj => ?_⟩
      rw [hdue j hj, Ledger.due_put_other]
      intro ht
      exact hk (ha k id y.segment x.segment _ _ (segment?_of_hold? hy) (segment?_of_hold? hx)
        ⟨rfl, Nat.le_add_right .., Nat.add_lt_add_left hj _⟩ ht.covers)

theorem of_store {start : Nat} {bs : List UInt8} (h : Kept o ρ l) (hs : l.Sound) (ha : l.Apart)
    (hm : l.ChangeStep (.store id start bs) l') :
    Kept o (ρ.note l.segment? ⟨id, start, bs⟩) l' := by
  cases hm with
  | store _ page f p _ _ hf hw he =>
      have hbytes {k : PageId} {y : Hold} (hk : k ≠ id) (hy : l.hold? k = some y) :
          Function.update l.bytes p (Bytes.splice (l.bytes p) start bs) y.phys =
            l.bytes y.phys := by
        obtain ⟨j, hj, hphys⟩ := home?_of_hold? hy
        exact bytes_other hs hf.2.2 hphys (home?_ne_of_ne hs hf.home?_eq hk hj)
      have hother {k : PageId} (hk : k ≠ id) :
          hold? { l with
            entry := Function.update l.entry id ((l.entry id).map (fun e => e.set .dirty true))
            bytes := Function.update l.bytes p (Bytes.splice (l.bytes p) start bs) } k =
          l.hold? k :=
        hold?_congr hs rfl (fun _ _ _ hq => hq) (hardDirty_congr (Function.update_of_ne hk ..))
      cases hc : page.content with
      | unloaded => exact absurd hc ((hs.coherent hf.1).ne_unloaded hf.2.1)
      | anon slot =>
          have hg : l.segment? id = none := by
            rw [segment?, hf.1, Option.bind_some, Page.segment?, hc]
          have hk : page.kind = .anon := by rw [Page.kind, hc]
          have hid := hold?_anon page hf.1 hk
          rw [Ledger.note, hg]
          refine h.congr ?_ rfl fun k y hy => hbytes ?_ hy
          · funext k
            by_cases hk' : k = id
            · subst hk'
              rw [hid]
              exact hold?_anon page hf.1 hk
            · exact hother hk'
          · rintro rfl
            rw [hid] at hy
            cases hy
      | file g span dirty =>
          have hx := hold?_file hf hc
          rw [Ledger.note, segment?_of_hold? hx]
          refine h.store ha hx ?_ rfl (Function.update_self ..) fun k y hk hy => hbytes hk hy
          exact hold?_ne_update _ (hold?_of_store hf hc he _) fun k hk => hother hk

end Kept

end Layout

end Pager
