import Pager.Machine.Mapping
import Pager.Proofs.Faulting

namespace Pager.Machine

open Step

variable {m : Machine} {s : SpaceId} {a : VirtAddr} {len offset : Nat} {writable : Bool}
  {file : FileId} {v : VirtPage}

def mappedPages (d : Array UInt8) (len : Nat) (writable : Bool) (file : FileId) (offset : Nat)
    (i : Nat) : Page :=
  mappedPage file offset (min (d.size - offset) len) writable (pagesFor len) i

theorem toNat_plus {n : Nat} (h : v.toNat + n < wordBound) : (v.plus n).toNat = v.toNat + n := by
  have hv : (v.val + UInt64.ofNat n).toNat = v.val.toNat + n := by
    rw [UInt64.toNat_add, UInt64.toNat_ofNat', Nat.add_mod_mod]
    exact Nat.mod_eq_of_lt h
  exact hv

theorem plus_zero (v : VirtPage) : v.plus 0 = v :=
  congrArg VirtPage.mk (UInt64.add_zero v.val)

theorem pagesFor_pos (h : 0 < len) : 0 < pagesFor len :=
  Nat.div_pos (by simp only [pageSize]; omega) (by decide)

theorem plus_inj {n i j : Nat} (h : v.toNat + n ≤ wordBound) (hi : i < n) (hj : j < n)
    (he : v.plus i = v.plus j) : i = j := by
  have := congrArg VirtPage.toNat he
  rw [toNat_plus (by omega), toNat_plus (by omega)] at this
  omega

theorem registerAll_ends (page : Nat → Page) (done : List VirtPage) (is : List Nat)
    (hu : m.layout.Unpinned) (hlt : ∀ i ∈ is, v.toNat + i < wordBound)
    (hn : is.Pairwise (fun i j => v.plus i ≠ v.plus j))
    (hp : ∀ i ∈ is, m.layout.page ⟨s, v.plus i⟩ = none) (hl : ∀ i, (page i).loaded = false)
    (hh : ∀ i ∈ is, Layout.WellFormed (v.plus i) (page i)) :
    Ends (registerAll s v page done is) m
      (fun _ t => m.layout.UnpinnedCourse
          (is.map (fun i => .register ⟨s, v.plus i⟩ (page i))) t.layout ∧
        ∀ id, t.layout.page id = m.layout.page id ∨ ∃ i, t.layout.page id = some (page i))
      (fun _ _ => False) := by
  induction is generalizing m done with
  | nil => exact ⟨.refl hu, fun _ => .inl rfl⟩
  | cons i is ih =>
      obtain ⟨hi, hn⟩ := List.pairwise_cons.mp hn
      simp only [registerAll, VirtPage.add?_eq_some (hlt i (by simp)), ends_bind, ends_ofOption,
        ends_handle, ends_register (hp i (by simp)), Option.some.injEq, forall_eq', reduceCtorEq,
        false_imp_iff, and_true]
      have hd := Layout.ChangeStep.register (l := m.layout) ⟨s, v.plus i⟩ (page i)
        (hp i (by simp)) (hl i)
        (hh i (by simp))
      rw [← layout_setPage] at hd
      refine (ih (v.plus i :: done) (hd.of_register.2.2.2 hu)
        (fun j hj => hlt j (List.mem_cons_of_mem _ hj)) hn ?_
        fun j hj => hh j (List.mem_cons_of_mem _ hj)).mono ?_ fun _ _ h => h
      · intro j hj
        rw [layout_setPage]
        change Function.update _ _ _ _ = _
        rw [Function.update_of_ne]
        · exact hp j (List.mem_cons_of_mem _ hj)
        · rw [ne_eq, PageId.mk.injEq, not_and]
          exact fun _ he => hi j hj he.symm
      · intro _ t h
        obtain ⟨hw, hpages⟩ := h
        refine ⟨⟨(Layout.Course.single hd).append hw.course, hw.unpinned⟩, fun id => ?_⟩
        rcases hpages id with hsame | hnew
        · rw [hsame, layout_setPage]
          change Function.update _ _ _ _ = _ ∨ _
          by_cases hid : id = ⟨s, v.plus i⟩
          · subst hid
            exact .inr ⟨i, Function.update_self ..⟩
          · exact .inl (Function.update_of_ne hid ..)
        · exact .inr hnew

theorem toNat_page_add_pagesFor (h : offset + pagesFor len * pageSize < wordBound) :
    a.page.toNat + pagesFor len ≤ wordBound := by
  have hp := a.toNat_page
  have := a.toNat_lt
  simp only [wordBound, pageSize] at *
  omega

theorem wellFormed_mappedPages {d : Array UInt8} {i : Nat}
    (h : v.toNat + pagesFor len ≤ wordBound) (hi : i < pagesFor len) :
    Layout.WellFormed (v.plus i) (mappedPages d len writable file offset i) := by
  by_cases h0 : i = 0
  · subst h0
    refine ⟨.unloaded .., by rintro ⟨⟩, ?_⟩
    rw [toNat_plus (by omega)]
    simpa [mappedPages, mappedPage, Page.span] using h
  · exact Layout.wellFormed_of_span _ (.unloaded ..)
      (by simp [mappedPages, mappedPage, Page.span, h0])

theorem page_eq_none_of_overlaps {count : Nat} (h : m.overlaps s v count = false)
    (hb : v.toNat + count ≤ wordBound) {i : Nat} (hi : i < count) :
    m.layout.page ⟨s, v.plus i⟩ = none := by
  by_contra hne
  have hmem : v.plus i ∈ (m.pages s).keys := by
    rw [PageMap.mem_keys, PageMap.contains]
    exact Option.isSome_iff_ne_none.mpr hne
  rw [overlaps, List.any_eq_false] at h
  have := h _ hmem
  rw [toNat_plus (by omega)] at this
  simp only [Bool.and_eq_true, decide_eq_true_eq] at this
  omega

theorem reopen_ends :
    Ends File.reopen (m.files.get file)
      (fun _ d => (m.files.get file).reopenTrap.ask.1 = false ∧ d.data = (m.files.get file).data)
      (fun _ d => (m.files.get file).reopenTrap.ask.1 = true ∧
        d.data = (m.files.get file).data) := by
  unfold Ends File.reopen
  rcases (m.files.get file).reopenTrap.ask with ⟨_ | _, t⟩ <;> exact ⟨rfl, rfl⟩

/-- A mapping registers all its pages or none. -/
theorem mmap_ends (hu : m.layout.Unpinned) :
    Ends (mmap s a len writable file offset) m
      (fun r t => r = a ∧ (∀ i < pagesFor len, m.layout.page ⟨s, a.page.plus i⟩ = none) ∧
        m.layout.UnpinnedCourse
        ((List.range (pagesFor len)).map (fun i => .register ⟨s, a.page.plus i⟩
          (mappedPages (m.layout.data file) len writable file offset i))) t.layout)
      (fun e t => (∃ k, e = .errno k) ∧ t.layout = m.layout) := by
  simp only [mmap, ends_bind, ends_get, ends_require, ends_requireOr, ends_onFile,
    ends_note, ends_pure]
  refine ⟨fun hlen => ⟨fun _ => ⟨fun _ => ⟨fun hlt => ⟨fun hov => ?_, fun _ => ?_⟩, fun _ => ?_⟩,
    fun _ => ?_⟩, fun _ => ?_⟩, fun _ => ?_⟩
  · have hb : a.page.toNat + pagesFor len ≤ wordBound :=
      toNat_page_add_pagesFor (of_decide_eq_true hlt)
    refine reopen_ends.mono ?_ ?_
    · rintro _ d ⟨-, hd⟩
      have hl := layout_withFile_same m hd
      have hno : m.overlaps s a.page (pagesFor len) = false := by simpa using hov
      have hnone (i : Nat) (hi : i < pagesFor len) : m.layout.page ⟨s, a.page.plus i⟩ = none :=
        page_eq_none_of_overlaps hno hb hi
      have hreg := registerAll_ends (m := m.withFile file d) (s := s) (v := a.page)
        (mappedPages (m.layout.data file) len writable file offset) []
        (List.range (pagesFor len)) (by rw [hl]; exact hu)
        (fun i hi => by
          have := List.mem_range.mp hi
          omega)
        (List.Pairwise.imp_of_mem (fun hi hj hlt he => absurd
          (plus_inj hb (List.mem_range.mp hi) (List.mem_range.mp hj) he) (Nat.ne_of_lt hlt))
          List.pairwise_lt_range)
        (fun i hi => by
          rw [hl]
          exact hnone i (List.mem_range.mp hi))
        (fun _ => rfl) (fun i hi => wellFormed_mappedPages hb (List.mem_range.mp hi))
      rw [hl] at hreg
      refine hreg.mono ?_ fun _ _ h => h.elim
      intro _ t h
      obtain ⟨hw, hpages⟩ := h
      rw [ends_demandHead (fun q hq => ?_), layout_emit _ rfl]
      · exact ⟨trivial, hnone, hw⟩
      · simp only [Bool.and_eq_true, bne_iff_ne] at hlen
        have hfirst := hnone 0 (pagesFor_pos (by omega))
        rw [plus_zero] at hfirst
        rcases hpages ⟨s, a.page⟩ with hsame | ⟨i, hnew⟩
        · rw [hsame, hfirst] at hq
          cases hq
        · rw [hnew] at hq
          obtain rfl := Option.some.inj hq
          rfl
    · rintro e d ⟨-, hd⟩
      exact ⟨⟨e, rfl⟩, layout_withFile_same m hd⟩
  · exact ⟨⟨_, rfl⟩, layout_emit _ rfl⟩
  all_goals exact ⟨⟨_, rfl⟩, trivial⟩

theorem mmapDescriptor_ends (hu : m.layout.Unpinned) {fd : Nat} {fds : Descriptors} :
    Ends (mmapDescriptor s a len writable fd fds offset) m
      (fun r t => ∃ file, fds.get? fd = some file ∧ r = a ∧
        (∀ i < pagesFor len, m.layout.page ⟨s, a.page.plus i⟩ = none) ∧ m.layout.UnpinnedCourse
        ((List.range (pagesFor len)).map (fun i => .register ⟨s, a.page.plus i⟩
          (mappedPages (m.layout.data file) len writable file offset i))) t.layout)
      (fun e t => (∃ k, e = .errno k) ∧ t.layout = m.layout) := by
  simp only [mmapDescriptor, ends_bind, ends_requireOr]
  refine ⟨fun _ => ?_, fun _ => ⟨⟨_, rfl⟩, layout_emit _ rfl⟩⟩
  cases hfd : fds.get? fd with
  | none => exact ⟨⟨_, rfl⟩, rfl⟩
  | some file =>
      exact (mmap_ends hu).mono (fun r t h => ⟨file, rfl, h⟩) fun e t h => h

end Pager.Machine
