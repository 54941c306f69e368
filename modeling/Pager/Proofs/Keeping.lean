import Pager.Proofs.Ledger

namespace Pager

open Step

namespace Layout

variable {l l' : Layout} {o : FileId → Array UInt8} {ρ : Ledger} {c : Change} {cs : List Change}
  {s : SpaceId} {a sp : VirtAddr} {w : World} {id : PageId} {page : Page}

theorem Course.of_snoc (h : l.Course (cs ++ [c]) l') :
    ∃ l₁ l₂, l.Course cs l₁ ∧ l₁.ChangeStep c l₂ ∧ l₂.Rearranged l' := by
  induction cs generalizing l with
  | nil =>
      cases h with
      | cons hr hc ht => exact ⟨_, _, .nil hr, hc, ht.rearranged⟩
  | cons d cs ih =>
      cases h with
      | cons hr hd ht =>
          obtain ⟨l₁, l₂, hcs, hc, hr'⟩ := ih ht
          exact ⟨l₁, l₂, .cons hr hd hcs, hc, hr'⟩

theorem apart_of_hidden (hm : l.Hidden l') : l'.Apart ↔ l.Apart := by
  rw [Apart, Apart, segment?_of_hidden hm]

namespace Kept

theorem of_hidden (h : Kept o ρ l) (hs : l.Sound) (ha : l.Apart) (hm : l.Hidden l') :
    Kept o ρ l' :=
  h.of_shifts ha (shifts_of_hidden hs hm)

theorem of_rearranged (h : Kept o ρ l) (hs : l.Sound) (ha : l.Apart) (hm : l.Rearranged l') :
    Kept o ρ l' := by
  refine (hm.preserves (P := fun k => k.Sound ∧ k.Apart ∧ Kept o ρ k) ⟨hs, ha, h⟩ ?_).2.2
  intro b d hbd h
  obtain ⟨hs, ha, h⟩ := h
  exact ⟨hs.of_hidden hbd, (apart_of_hidden hbd).mpr ha, h.of_hidden hs ha hbd⟩

theorem of_bare (h : Kept o ρ l) (hs : l.Sound) (ha : l.Apart) (hm : l.Course cs l')
    (hcs : ∀ c ∈ cs, c.Quiet ∧ c.Bare) (hl : l'.lost = l.lost) : Kept o ρ l' := by
  -- losses only add up, so there is none on the way either
  refine (hm.preserves (P := fun k => k.Sound ∧ k.Apart ∧ l.lost ≤ k.lost ∧
    (k.lost = l.lost → Kept o ρ k)) ⟨hs, ha, le_rfl, fun _ => h⟩ ?_ ?_).2.2.2 hl
  · intro b d hbd h
    obtain ⟨hs, ha, hle, h⟩ := h
    rw [lost_of_hidden hbd]
    exact ⟨hs.of_hidden hbd, (apart_of_hidden hbd).mpr ha, hle,
      fun he => (h he).of_hidden hs ha hbd⟩
  · intro b d c hc hbd h
    obtain ⟨hs, ha, hle, h⟩ := h
    obtain ⟨hquiet, hbare⟩ := hcs c hc
    have hle' := lost_le_of_step hbd
    refine ⟨hs.of_step hbd, ha.mono fun _ _ => segment?_of_bare hbd hbare, hle.trans hle', ?_⟩
    intro he
    exact (h (by omega)).of_shifts ha (shifts_of_step hs hbd hquiet (by omega))

theorem of_lasting (h : Kept o ρ l) (hs : l.Sound) (hm : l.Course cs l')
    (hcs : ∀ c ∈ cs, c.Quiet ∧ c.Lasting) (ha : l'.Apart) : Kept o ρ l' := by
  refine (hm.preserves (P := fun k => k.Sound ∧ (k.Apart → Kept o ρ k)) ⟨hs, fun _ => h⟩
    ?_ ?_).2 ha
  · intro b d hbd h
    obtain ⟨hs, h⟩ := h
    refine ⟨hs.of_hidden hbd, fun hd => ?_⟩
    have hb := (apart_of_hidden hbd).mp hd
    exact (h hb).of_hidden hs hb hbd
  · intro b d c hc hbd h
    obtain ⟨hs, h⟩ := h
    obtain ⟨hquiet, hlasting⟩ := hcs c hc
    refine ⟨hs.of_step hbd, fun hd => ?_⟩
    have hb : b.Apart := hd.mono fun _ _ => segment?_of_lasting hbd hlasting
    exact (h hb).of_shifts hb (shifts_of_step hs hbd hquiet (lost_of_lasting hbd hlasting))

end Kept

theorem loads_changes (h : Loads id page w cs) : ∀ c ∈ cs, c.Quiet ∧ c.Bare ∧ c.Lasting := by
  cases h with
  | hidden => simp
  | load => simp [Change.Quiet, Change.Bare, Change.Lasting]

theorem register_stack_changes :
    (Change.register id .stack).Quiet ∧ (Change.register id .stack).Bare ∧
      (Change.register id .stack).Lasting := ⟨trivial, rfl, trivial⟩

theorem opens_changes (h : l.Opens s a sp w cs) : ∀ c ∈ cs, c.Quiet ∧ c.Bare ∧ c.Lasting := by
  cases h with
  | there _ _ _ h => exact loads_changes h
  | grown cs _ _ h =>
      intro c hc
      rcases List.mem_cons.mp hc with rfl | hc
      · exact register_stack_changes
      · exact loads_changes h c hc

theorem balks_changes (h : l.Balks s a sp cs) : ∀ c ∈ cs, c.Quiet ∧ c.Bare ∧ c.Lasting := by
  cases h with
  | same => simp
  | grown =>
      intro c hc
      rw [List.mem_singleton.mp hc]
      exact register_stack_changes

theorem store_changes {start : Nat} {bs : List UInt8}
    (hcs : ∀ c ∈ cs, c.Quiet ∧ c.Bare ∧ c.Lasting) :
    ∀ c ∈ cs ++ [.store id start bs], c.Bare ∧ c.Lasting := by
  intro c hc
  rcases List.mem_append.mp hc with hc | hc
  · exact (hcs c hc).2
  · rw [List.mem_singleton.mp hc]
    exact ⟨trivial, trivial⟩

theorem Writes.lasting {k : Nat} {data : List UInt8} {ps : List (Piece × World)}
    {e : Option Failure} (h : Writes s a sp k data ps e l l') :
    l'.segment? = l.segment? ∧ l'.lost = l.lost := by
  induction h with
  | done => exact ⟨rfl, rfl⟩
  | overflow => exact ⟨rfl, rfl⟩
  | stops _ _ _ hb hw =>
      have hcs := balks_changes hb
      exact ⟨segment?_of_course hw.course fun c hc => (hcs c hc).2,
        lost_of_course hw.course fun c hc => (hcs c hc).2.2⟩
  | piece _ _ _ ho hw _ ih =>
      have hseg := segment?_of_course hw.course (store_changes (opens_changes ho))
      have hlost := lost_of_course hw.course fun c hc => (store_changes (opens_changes ho) c hc).2
      exact ⟨ih.1.trans hseg, ih.2.trans hlost⟩

namespace Kept

theorem of_access (h : Kept o ρ l) (hs : l.Sound) (ha : l.Apart) (hm : l.Course cs l')
    (hcs : ∀ c ∈ cs, c.Quiet ∧ c.Bare ∧ c.Lasting) :
    Kept o ρ l' ∧ l'.segment? = l.segment? ∧ l'.Apart := by
  have hseg := segment?_of_course hm fun c hc => (hcs c hc).2
  refine ⟨h.of_bare hs ha hm (fun c hc => ⟨(hcs c hc).1, (hcs c hc).2.1⟩)
    (lost_of_course hm fun c hc => (hcs c hc).2.2), hseg, ?_⟩
  rwa [Apart, hseg]

theorem of_piece {start : Nat} {bs : List UInt8} (h : Kept o ρ l) (hs : l.Sound) (ha : l.Apart)
    (hm : l.Course (cs ++ [.store id start bs]) l')
    (hcs : ∀ c ∈ cs, c.Quiet ∧ c.Bare ∧ c.Lasting) :
    Kept o (ρ.note l.segment? ⟨id, start, bs⟩) l' ∧ l'.segment? = l.segment? ∧ l'.Apart := by
  obtain ⟨l₁, l₂, hcourse, hstore, hr⟩ := hm.of_snoc
  obtain ⟨h₁, hseg₁, ha₁⟩ := h.of_access hs ha hcourse hcs
  have hs₁ := hs.of_course hcourse
  have h₂ := h₁.of_store hs₁ ha₁ hstore
  rw [hseg₁] at h₂
  have hseg₂ := segment?_of_course (hcourse.snoc hstore) (store_changes hcs)
  have hseg := segment?_of_course hm (store_changes hcs)
  have ha₂ : l₂.Apart := by rwa [Apart, hseg₂]
  exact ⟨h₂.of_rearranged (hs₁.of_step hstore) ha₂ hr, hseg, by rwa [Apart, hseg]⟩

theorem of_writes {k : Nat} {data : List UInt8} {ps : List (Piece × World)} {e : Option Failure}
    (hw : Writes s a sp k data ps e l l') (hs : l.Sound) (ha : l.Apart) (h : Kept o ρ l) :
    Kept o (ρ.notes l.segment? (ps.map Prod.fst)) l' := by
  induction hw generalizing ρ with
  | done => exact h
  | overflow => exact h
  | stops _ _ _ hb hw => exact (h.of_access hs ha hw.course (balks_changes hb)).1
  | piece _ _ _ ho hw _ ih =>
      obtain ⟨h₁, hseg, ha₁⟩ := h.of_piece hs ha hw.course (opens_changes ho)
      have ih := ih (hs.of_course hw.course) ha₁ h₁
      rw [hseg] at ih
      exact ih

theorem of_reads {k len : Nat} {ws : List World} {bs : List UInt8} {e : Option Failure}
    (hr : Reads s a sp k len ws bs e l l') (hs : l.Sound) (ha : l.Apart) (h : Kept o ρ l) :
    Kept o ρ l' := by
  induction hr with
  | done => exact h
  | overflow => exact h
  | stops _ _ _ hb hw => exact (h.of_access hs ha hw.course (balks_changes hb)).1
  | piece _ _ _ ho hw _ _ ih =>
      obtain ⟨h₁, -, ha₁⟩ := h.of_access hs ha hw.course (opens_changes ho)
      exact ih (hs.of_course hw.course) ha₁ h₁

end Kept

end Layout

end Pager
