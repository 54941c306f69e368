import Pager.Proofs.Clean
import Pager.Proofs.Deeds

namespace Pager

open Step

variable {d : Deed} {ds past : List Deed} {id : PageId}

/-- The page is a new one, or all of its changes are in its file. -/
def Deed.Settles (id : PageId) : Deed → Prop
  | registered o _ => o = id
  | wrote o _ _ whole => o = id ∧ whole = true
  | _ => False

/-- Bytes were stored in the page, which is one of a file, and that was not
settled since. -/
def Owed (ds : List Deed) (id : PageId) : Prop :=
  ∃ before p after, ds = before ++ .stored p .file :: after ∧ p.id = id ∧
    ∀ d ∈ after, ¬d.Settles id

theorem owed_stored (ds : List Deed) (p : Piece) : Owed (ds ++ [.stored p .file]) p.id :=
  ⟨ds, p, [], rfl, rfl, by simp⟩

theorem Owed.snoc (h : Owed ds id) (hd : ¬d.Settles id) : Owed (ds ++ [d]) id := by
  obtain ⟨before, p, after, rfl, hp, ha⟩ := h
  refine ⟨before, p, after ++ [d], by simp, hp, fun e he => ?_⟩
  rcases List.mem_append.mp he with he | he
  · exact ha e he
  · rw [List.mem_singleton.mp he]
    exact hd

namespace Layout

variable {l l' : Layout} {o : PageId} {x : Segment × PageBytes}

theorem Milder.pending? (h : l.Milder l') (hs : l.Sound) (hx : l'.pending? o = some x) :
    ∃ y, l.pending? o = some y := by
  obtain ⟨cs, hc, hcs⟩ := h
  -- backwards, from the layout at the end to the one before each move
  have hback : l'.Sound ∧ ∀ o y, l'.pending? o = some y → ∃ z, l.pending? o = some z := by
    refine hc.preserves (P := fun k => k.Sound ∧ ∀ o y, k.pending? o = some y →
      ∃ z, l.pending? o = some z) ⟨hs, fun _ y hy => ⟨y, hy⟩⟩ ?_ ?_
    · rintro a b hab ⟨ha, h⟩
      refine ⟨ha.of_hidden hab, fun o y hy => h o y ?_⟩
      exact (flushes_of_shifts (shifts_of_hidden ha hab)).pending?_of_some hy
    · rintro a b c hmem hab ⟨ha, h⟩
      refine ⟨ha.of_step hab, fun o y hy => ?_⟩
      rcases exists_pending?_of_step hab hy with ⟨z, hz⟩ | ⟨hn, -⟩
      · exact h o _ hz
      · refine absurd ?_ hn
        have := hcs c hmem
        cases c <;> trivial
  exact hback.2 o x hx

end Layout

namespace Machine

variable {m t : Machine}

def Accounts (m : Machine) (ds : List Deed) : Prop :=
  ∀ id x, m.layout.pending? id = some x → Owed ds id

theorem Accounts.of_milder (h : m.Accounts ds) (hs : m.layout.Sound)
    (hl : m.layout.Milder t.layout) : t.Accounts ds := by
  intro id x hx
  obtain ⟨y, hy⟩ := hl.pending? hs hx
  exact h id y hy

theorem Accounts.of_deedStep (h : m.Accounts ds) (hs : m.layout.Sound) (ha : m.DeedStep d t) :
    t.Accounts (ds ++ [d]) := by
  intro o x hx
  cases d with
  | registered id page =>
      obtain ⟨hr, -⟩ := ha
      obtain ⟨y, hy⟩ := (Layout.exists_pending?_of_step hr hx).resolve_right fun hn => hn.1 trivial
      refine (h o _ hy).snoc ?_
      rintro rfl
      rw [Layout.pending?_idle (Layout.hold?_idle _)] at hy
      · cases hy
      · rw [Layout.home?, hr.of_register.1, Option.bind_none]
  | stored p k =>
      obtain ⟨hst, -, page, hpage, hk⟩ := ha
      rcases Layout.exists_pending?_of_step hst hx with ⟨y, hy⟩ | ⟨-, ho⟩
      · exact (h o _ hy).snoc id
      · obtain ⟨z, hz, -⟩ := Layout.exists_of_pending? hx
        obtain ⟨y, hy, -⟩ := Layout.hold?_of_step hst hz
        obtain ⟨q, f, dirty, hin, hc, -⟩ := Layout.exists_of_hold? hy
        have hfile : k = .file := by
          have hq : m.layout.page p.id = some q := by
            rw [← hin.1, ho]
            rfl
          rw [← hk, Option.some.inj (hpage.symm.trans hq), Page.kind, hc]
        subst hfile ho
        exact owed_stored ds p
  | wrote id g bs whole =>
      obtain ⟨hl, hw⟩ := ha
      obtain ⟨y, hy⟩ := hl.pending? hs hx
      refine (h o y hy).snoc ?_
      rintro ⟨rfl, hwhole⟩
      rw [Layout.pending?_idle (Layout.hold?_idle (hw.gone hwhole))] at hx
      cases hx

theorem DeedTrace.accounts (hd : DeedTrace m ds t) (hs : m.layout.Sound) (h : m.Accounts past) :
    t.layout.Sound ∧ t.Accounts (past ++ ds) := by
  induction hd generalizing past with
  | nil => exact ⟨hs, by rwa [List.append_nil]⟩
  | calm hl _ _ ih => exact ih (hs.of_course hl.choose_spec.1) (h.of_milder hs hl)
  | deed ha _ ih =>
      obtain ⟨cs, hc⟩ := ha.course
      obtain ⟨hst, hacc⟩ := ih (hs.of_course hc) (h.of_deedStep hs ha)
      rw [List.append_assoc, List.singleton_append] at hacc
      exact ⟨hst, hacc⟩

theorem DeedTrace.exists_deedStep {before after : List Deed} (hd : DeedTrace m ds t)
    (heq : ds = before ++ d :: after) : ∃ u v, DeedTrace m before u ∧ u.DeedStep d v := by
  induction hd generalizing before with
  | nil => simp at heq
  | calm hl hs _ ih =>
      obtain ⟨u, v, hu, ha⟩ := ih heq
      exact ⟨u, v, .calm hl hs hu, ha⟩
  | @deed m t _ e _ he _ ih =>
      cases before with
      | nil =>
          obtain ⟨rfl, -⟩ := List.cons.inj heq
          exact ⟨m, t, .nil m, he⟩
      | cons =>
          obtain ⟨rfl, htail⟩ := List.cons.inj heq
          obtain ⟨u, v, hu, ha⟩ := ih htail
          exact ⟨u, v, .deed he hu, ha⟩

theorem DeedTrace.writes (hd : DeedTrace m ds t) (hn : ∀ id g bs whole, .wrote id g bs whole ∉ ds)
    (f : FileId) : (t.files.get f).writes = (m.files.get f).writes := by
  induction hd with
  | nil => rfl
  | calm _ hs _ ih => exact (ih hn).trans (hs f).writes
  | @deed m t u d ds ha _ ih =>
      refine (ih fun id g bs whole h => hn id g bs whole (List.mem_cons_of_mem _ h)).trans ?_
      cases d with
      | registered => exact (ha.2 f).writes
      | stored => exact (ha.2.1 f).writes
      | wrote id g bs whole => exact absurd (List.mem_cons_self ..) (hn id g bs whole)

end Machine

/-- The deeds of a run: those of each operation, among which are the pieces that it
reports to have stored. -/
inductive Chronicle : Machine → List (Op × Report) → List Deed → Machine → Prop
  | nil (m : Machine) : Chronicle m [] [] m
  | cons {m t : Machine} {op : Op} {trail : List (Op × Report)} {ds es : List Deed}
      (hd : m.DeedTrace ds (op.run m).2) (hp : ds.filterMap Deed.piece? = (op.run m).1.stored)
      (h : Chronicle (op.run m).2 trail es t) :
      Chronicle m ((op, (op.run m).1) :: trail) (ds ++ es) t
  | arm {m t : Machine} {op : Op} {trail : List (Op × Report)} {es : List Deed} (ha : op.Arms)
      (h : Chronicle (op.run m).2 trail es t) : Chronicle m ((op, (op.run m).1) :: trail) es t

/-- After so many deeds of a run the system was like this, with an operation under
way. -/
def Midway (m : Machine) (trail : List (Op × Report)) (ds : List Deed) (u : Machine) : Prop :=
  ∃ past t es fs, past <+: trail ∧ Chronicle m past es t ∧ t.DeedTrace fs u ∧ ds = es ++ fs

namespace Chronicle

variable {m t u : Machine} {trail : List (Op × Report)} {op : Op}

theorem midway_cons (hd : m.DeedTrace ds (op.run m).2)
    (hp : ds.filterMap Deed.piece? = (op.run m).1.stored) (h : Midway (op.run m).2 trail past u) :
    Midway m ((op, (op.run m).1) :: trail) (ds ++ past) u := by
  obtain ⟨front, v, es, fs, hpre, hc, hu, rfl⟩ := h
  exact ⟨_, v, ds ++ es, fs, List.cons_prefix_cons.mpr ⟨rfl, hpre⟩, .cons hd hp hc, hu,
    (List.append_assoc ..).symm⟩

theorem midway_arm (ha : op.Arms) (h : Midway (op.run m).2 trail ds u) :
    Midway m ((op, (op.run m).1) :: trail) ds u := by
  obtain ⟨front, v, es, fs, hpre, hc, hu, rfl⟩ := h
  exact ⟨_, v, es, fs, List.cons_prefix_cons.mpr ⟨rfl, hpre⟩, .arm ha hc, hu, rfl⟩

theorem exists_deedStep {before after : List Deed} (h : Chronicle m trail ds t)
    (heq : ds = before ++ d :: after) : ∃ u v, Midway m trail before u ∧ u.DeedStep d v := by
  induction h generalizing before with
  | nil => simp at heq
  | @cons m t op trail ds es hd hp _ ih =>
      rcases List.append_eq_append_iff.mp heq with ⟨as, rfl, hes⟩ | ⟨as, rfl, hes⟩
      · obtain ⟨u, v, hu, ha⟩ := ih hes
        exact ⟨u, v, midway_cons hd hp hu, ha⟩
      · cases as with
        | nil =>
            have hrest : es = [] ++ d :: after := hes.symm
            obtain ⟨u, v, hu, ha⟩ := ih hrest
            refine ⟨u, v, ?_, ha⟩
            simpa using midway_cons hd hp hu
        | cons e as =>
            obtain ⟨rfl, -⟩ := List.cons.inj hes
            obtain ⟨u, v, hu, ha⟩ := hd.exists_deedStep rfl
            exact ⟨u, v, ⟨[], m, [], before, List.nil_prefix, .nil m, hu, rfl⟩, ha⟩
  | arm harm _ ih =>
      obtain ⟨u, v, hu, ha⟩ := ih heq
      exact ⟨u, v, midway_arm harm hu, ha⟩

theorem accounts (h : Chronicle m trail ds t) (hs : m.layout.Sound) (ha : m.Accounts past) :
    t.layout.Sound ∧ t.Accounts (past ++ ds) := by
  induction h generalizing past with
  | nil => exact ⟨hs, by rwa [List.append_nil]⟩
  | cons hd _ _ ih =>
      obtain ⟨hst, hacc⟩ := hd.accounts hs ha
      rw [← List.append_assoc]
      exact ih hst hacc
  | arm harm _ ih =>
      rw [← Op.layout_arm harm] at hs
      refine ih hs fun id x hx => ha id x ?_
      rwa [← Op.layout_arm harm]

theorem writes (h : Chronicle m trail ds t) (hn : ∀ id g bs whole, .wrote id g bs whole ∉ ds)
    (f : FileId) : (t.files.get f).writes = (m.files.get f).writes := by
  induction h with
  | nil => rfl
  | cons hd _ _ ih =>
      refine (ih fun id g bs whole h => hn id g bs whole (List.mem_append_right _ h)).trans ?_
      exact hd.writes (fun id g bs whole h => hn id g bs whole (List.mem_append_left _ h)) f
  | arm harm _ ih => exact (ih hn).trans (Op.writes_arm harm f)

end Chronicle

theorem Midway.accounts {m u : Machine} {trail : List (Op × Report)} (h : Midway m trail ds u)
    (hs : m.layout.Sound) (ha : m.Accounts []) : u.Accounts ds := by
  obtain ⟨past, t, es, fs, -, hc, hd, rfl⟩ := h
  obtain ⟨hst, hacc⟩ := hc.accounts hs ha
  exact (hd.accounts hst hacc).2

theorem Runs.exists_chronicle {m t : Machine} {trail : List (Op × Report)} (h : Runs m trail t)
    (hs : m.layout.Sound) (hu : m.layout.Unpinned) : ∃ ds, Chronicle m trail ds t := by
  induction h with
  | nil m => exact ⟨[], .nil m⟩
  | @cons m t op trail ha _ ih =>
      obtain ⟨cs, hw, -⟩ := Op.goes_run hs hu ha
      obtain ⟨es, he⟩ := ih (hs.of_course hw.course) hw.unpinned
      by_cases harm : op.Arms
      · exact ⟨es, .arm harm he⟩
      · obtain ⟨ds, hd, hp⟩ := Op.run_deedTrace hs hu ha harm
        exact ⟨ds ++ es, .cons hd hp he⟩

/-- A page is written to its file only if a program has stored bytes in it since it
was registered and since all of its changes were written the last time. What is
written are the first bytes of its frame. -/
theorem Runs.writes_owed {m₀ m : Machine} {trail : List (Op × Report)} (h₀ : Starts m₀)
    (h : Runs m₀ trail m) :
    (∃ ds, Chronicle m₀ trail ds m) ∧ ∀ ds, Chronicle m₀ trail ds m →
      (∀ before id g bs whole after, ds = before ++ .wrote id g bs whole :: after →
        Owed before id ∧ ∃ u v, Midway m₀ trail before u ∧ u.WritesOut id g bs whole v ∧
          ∃ page f p, u.layout.InFrame id page f p ∧ page.segment? = some g ∧
            bs = Bytes.slice (u.ram.bytes p) 0 g.length) ∧
      ((∀ p, .stored p .file ∉ ds) → ∀ f, (m.files.get f).writes = (m₀.files.get f).writes) := by
  obtain ⟨hs, hu⟩ := h₀.sound
  refine ⟨h.exists_chronicle hs hu, fun ds hc => ?_⟩
  have hnone : m₀.Accounts [] := by
    obtain ⟨config, n, disk, files, -, -, rfl⟩ := h₀
    intro id x hx
    rw [Layout.pending?_idle (Layout.hold?_idle _)] at hx
    · cases hx
    · rw [Layout.home?, Machine.page_boot, Option.bind_none]
  have howed {before id g bs whole after} (heq : ds = before ++ .wrote id g bs whole :: after) :
      ∃ u v, Midway m₀ trail before u ∧ u.WritesOut id g bs whole v ∧ Owed before id := by
    obtain ⟨u, v, hmid, -, hw⟩ := hc.exists_deedStep heq
    obtain ⟨b, hb, -⟩ := hw.pending
    exact ⟨u, v, hmid, hw, hmid.accounts hs hnone id _ hb⟩
  refine ⟨fun before id g bs whole after heq => ?_, fun hn f => hc.writes ?_ f⟩
  · obtain ⟨u, v, hmid, hw, ho⟩ := howed heq
    exact ⟨ho, u, v, hmid, hw, hw.inFrame⟩
  · intro id g bs whole hmem
    obtain ⟨before, after, heq⟩ := List.append_of_mem hmem
    obtain ⟨-, -, -, -, b, p, a, hb, -⟩ := howed heq
    refine hn p ?_
    simp [heq, hb]

theorem writes_owed_one_frame :
    ∃ m₀ trail m, Starts m₀ ∧ Runs m₀ trail m ∧
      trail.map Prod.fst =
        [.alloc 0 .file ⟨4096⟩ true (some (.segment ⟨0, 0, 4, by decide⟩)),
          .alloc 0 .anon ⟨8192⟩ true none, .write 0 ⟨4096⟩ [1, 2] ⟨0⟩, .claim 0 ⟨8192⟩] ∧
      (m₀.files.get 0).writes = 0 ∧ (m.files.get 0).writes = 1 ∧
      ∃ ds p, Chronicle m₀ trail ds m ∧ .stored p .file ∈ ds ∧
        ∀ before id g bs whole after, ds = before ++ .wrote id g bs whole :: after →
          Owed before id ∧ ∃ u v, Midway m₀ trail before u ∧ u.WritesOut id g bs whole v ∧
            ∃ page f p, u.layout.InFrame id page f p ∧ page.segment? = some g ∧
              bs = Bytes.slice (u.ram.bytes p) 0 g.length := by
  have h₀ : Starts (.boot {} (.ofCapacity 1) none [.ofList [7, 7, 7, 7]]) :=
    ⟨{}, 1, none, [.ofList [7, 7, 7, 7]], by decide, by rintro d ⟨⟩, rfl⟩
  have h : Runs (.boot {} (.ofCapacity 1) none [.ofList [7, 7, 7, 7]])
      [(.alloc 0 .file ⟨4096⟩ true (some (.segment ⟨0, 0, 4, by decide⟩)), _),
        (.alloc 0 .anon ⟨8192⟩ true none, _), (.write 0 ⟨4096⟩ [1, 2] ⟨0⟩, _),
        (.claim 0 ⟨8192⟩, _)] _ :=
    .cons trivial (.cons trivial (.cons trivial (.cons trivial (.nil _))))
  obtain ⟨⟨ds, hc⟩, hall⟩ := Runs.writes_owed h₀ h
  obtain ⟨howed, hnone⟩ := hall ds hc
  refine ⟨_, _, _, h₀, h, rfl, by decide +kernel, by decide +kernel, ds, ?_⟩
  by_contra hn
  have hwrites := hnone (fun p hp => hn ⟨p, hc, hp, howed⟩) 0
  exact absurd hwrites (by decide +kernel)

end Pager
