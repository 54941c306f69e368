import Pager.Proofs.Consistency
import Pager.Proofs.Evolving
import Pager.Proofs.Forking

namespace Pager

/-- A page of a file counts as changed, whatever its mapping says. -/
def Page.dirty (p : Page) : Bool :=
  match p.content with
  | .file _ _ dirty => dirty
  | _ => false

namespace Machine

variable {m : Machine} {id : PageId} {page : Page}

/-- Where a page can be, by what it is at present. -/
structure Placed (m : Machine) (id : PageId) (page : Page) : Prop where
  resident : page.resident = true ↔ ∃ f fr, m.frames.get? f = some fr ∧ m.tenant? fr = some id
  unmapped : page.resident = false → m.mapping? id = none
  uninit : page.currentType = .uninit → page.resident = false ∧ page.slot? = none
  anon : page.currentType = .anon → (page.resident = true ↔ page.slot? = none)
  slot : ∀ s, page.slot? = some s → m.swap.isUsed s = true
  file : page.currentType = .file → page.resident = false → page.dirty = false

theorem placed_of_sound (hs : m.layout.Sound) (hpage : m.page? id = some page) :
    m.Placed id page := by
  have hpage' : m.layout.page id = some page := hpage
  have hhome : m.layout.home? id = page.frame? := by rw [Layout.home?, hpage', Option.bind_some]
  refine ⟨?_, fun hr => ?_, fun hk => ?_, fun hk => ?_, fun s h => ?_, fun hk hr => ?_⟩
  · rw [Page.resident, Option.isSome_iff_exists, ← hhome]
    exact exists_congr fun f => by rw [← hs.owners, owner?_eq_some hs]
  · rw [Page.resident, Option.isSome_eq_false_iff, Option.isNone_iff_eq_none, ← hhome] at hr
    exact hs.entry_eq_none hr
  · cases hs.coherent hpage' with
    | unloaded => exact ⟨rfl, rfl⟩
    | slot | frame | file | idle => cases hk
  · cases hs.coherent hpage' with
    | slot | frame => simp [Page.resident, Page.slot?]
    | unloaded w kind => cases hk
    | file | idle => cases hk
  · exact hs.test_slot (Option.bind_eq_some_iff.mpr ⟨page, hpage', h⟩)
  · cases hs.coherent hpage' with
    | file => cases hr
    | unloaded | slot | frame | idle => rfl

end Machine

/-- Operations one after the other, with a page that is registered between any
two of them. -/
inductive Lives (id : PageId) : Machine → List (Op × Report) → Machine → Prop
  | nil {m : Machine} (hid : m.page? id ≠ none) : Lives id m [] m
  | cons {m t : Machine} {op : Op} {trail : List (Op × Report)} (hid : m.page? id ≠ none)
      (ha : op.Admissible m) (h : Lives id (op.run m).2 trail t) :
      Lives id m ((op, (op.run m).1) :: trail) t

namespace Lives

variable {id : PageId} {m t : Machine} {trail : List (Op × Report)}

theorem runs (h : Lives id m trail t) : Runs m trail t := by
  induction h with
  | nil => exact .nil _
  | cons _ ha _ ih => exact .cons ha ih

theorem registered (h : Lives id m trail t) : m.page? id ≠ none := by
  cases h with
  | nil hid => exact hid
  | cons hid => exact hid

theorem continues (h : Lives id m trail t) (hs : m.layout.Sound) (hu : m.layout.Unpinned)
    {page q : Page} (hpage : m.page? id = some page) (hq : t.page? id = some q) :
    page.Continues q := by
  induction h generalizing page with
  | nil =>
      rw [Option.some.inj (hpage.symm.trans hq)]
      exact .refl q
  | cons _ ha h ih =>
      obtain ⟨cs, hw, -⟩ := Op.goes_run hs hu ha
      obtain ⟨r, hr⟩ := Option.ne_none_iff_exists'.mp h.registered
      have hcont := (Op.evolves_run hs hu ha).lives id page r hpage hr
      exact hcont.trans (ih (hs.of_course hw.course) hw.unpinned hr hq)

end Lives

/-- A page, which its number stands for, is what it was registered as for all
its life. It is loaded once and for all, whatever fails later. -/
theorem Reachable.life_cycle {m t : Machine} (h : Reachable m) {id : PageId}
    {trail : List (Op × Report)} (hl : Lives id m trail t) {page q : Page}
    (hpage : m.page? id = some page) (hq : t.page? id = some q) :
    q.writable = page.writable ∧ q.type = page.type ∧ q.span = page.span ∧
      (q.currentType = .uninit ∨ q.currentType = q.type) ∧
      (page.currentType ≠ .uninit → q.currentType ≠ .uninit) ∧ t.Placed id q := by
  obtain ⟨hs, hu⟩ := h.sound
  have hcont := hl.continues hs hu hpage hq
  have hloaded (p : Page) : p.currentType ≠ .uninit ↔ p.loaded = true := by
    cases hp : p.loaded <;> cases hk : p.kind <;> simp [Page.currentType, hp, hk, Kind.type]
  refine ⟨hcont.writable, by rw [Page.type, hcont.kind, Page.type], hcont.span, ?_, ?_,
    Machine.placed_of_sound (hl.runs.sound hs hu).1 hq⟩
  · cases hl : q.loaded <;> simp [Page.currentType, Page.type, hl]
  · rw [hloaded, hloaded]
    exact hcont.loaded

theorem life_cycle_two_pages_one_frame :
    ∃ m trail t page q, m = ((Op.alloc 0 .anon ⟨4096⟩ true none).run
        (.boot {} (.ofCapacity 1) (some (.ofCount 8)) [])).2 ∧
      trail.map Prod.fst = [.claim 0 ⟨4096⟩, .alloc 0 .anon ⟨8192⟩ true none, .claim 0 ⟨8192⟩] ∧
      Lives ⟨0, ⟨1⟩⟩ m trail t ∧ m.page? ⟨0, ⟨1⟩⟩ = some page ∧ t.page? ⟨0, ⟨1⟩⟩ = some q ∧
      q.writable = page.writable ∧ q.type = page.type ∧ q.span = page.span ∧
      (q.currentType = .uninit ∨ q.currentType = q.type) ∧
      (page.currentType ≠ .uninit → q.currentType ≠ .uninit) ∧ t.Placed ⟨0, ⟨1⟩⟩ q := by
  have h₀ : Starts (.boot {} (.ofCapacity 1) (some (.ofCount 8)) []) :=
    ⟨{}, 1, some (.ofCount 8), [], by decide, by rintro d ⟨⟩; decide, rfl⟩
  have hr : Runs (.boot {} (.ofCapacity 1) (some (.ofCount 8)) [])
      [(.alloc 0 .anon ⟨4096⟩ true none, _)] _ := .cons trivial (.nil _)
  have h : Reachable ((Op.alloc 0 .anon ⟨4096⟩ true none).run
      (.boot {} (.ofCapacity 1) (some (.ofCount 8)) [])).2 := ⟨_, _, h₀, hr⟩
  generalize hm : ((Op.alloc 0 .anon ⟨4096⟩ true none).run
    (.boot {} (.ofCapacity 1) (some (.ofCount 8)) [])).2 = m at h
  have hthere {t : Machine} (ht : (t.page? ⟨0, ⟨1⟩⟩).isSome = true) : t.page? ⟨0, ⟨1⟩⟩ ≠ none :=
    Option.isSome_iff_ne_none.mp ht
  have hl : Lives ⟨0, ⟨1⟩⟩ m [(.claim 0 ⟨4096⟩, _), (.alloc 0 .anon ⟨8192⟩ true none, _),
      (.claim 0 ⟨8192⟩, _)] _ :=
    .cons (hthere (by rw [← hm]; decide +kernel)) trivial
      (.cons (hthere (by rw [← hm]; decide +kernel)) trivial
        (.cons (hthere (by rw [← hm]; decide +kernel)) trivial
          (.nil (hthere (by rw [← hm]; decide +kernel)))))
  obtain ⟨page, hpage⟩ := Option.ne_none_iff_exists'.mp hl.registered
  obtain ⟨q, hq⟩ := Option.isSome_iff_exists.mp
    (show (((Op.claim 0 ⟨8192⟩).run ((Op.alloc 0 .anon ⟨8192⟩ true none).run
      ((Op.claim 0 ⟨4096⟩).run m).2).2).2.page? ⟨0, ⟨1⟩⟩).isSome = true by
        rw [← hm]; decide +kernel)
  exact ⟨m, _, _, page, q, rfl, rfl, hl, hpage, hq, Reachable.life_cycle h hl hpage hq⟩

end Pager
