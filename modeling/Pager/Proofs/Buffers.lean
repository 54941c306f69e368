import Pager.Proofs.KernelBoundary

namespace Pager

open Step

/-- Why a page does not come into a frame, where `runs` and `runs'` count what
the producers had done before and after. -/
inductive Page.Lacks (page : Page) (runs runs' : Nat → Nat) : Errno → Prop
  | short {e : Errno} (h : e.Shortage) : Lacks page runs runs' e
  | producer {e : Errno} (q : Producer) (span n : Nat)
      (hc : page.content = .unloaded .anon (some (.producer q)) span)
      (hn : runs q.key ≤ n) (hn' : n < runs' q.key)
      (he : (q.run n (Bytes.zero pageSize)).2 = some e) : Lacks page runs runs' e
  | unbacked (loader : Option Loader) (span : Nat)
      (hc : page.content = .unloaded .file loader span)
      (hb : loader.bind Loader.backing? = none) : Lacks page runs runs' .einval

theorem Page.Lacks.mono {page : Page} {runs runs₁ runs' : Nat → Nat} {e : Errno}
    (h : page.Lacks runs₁ runs' e) (hr : ∀ k, runs k ≤ runs₁ k) : page.Lacks runs runs' e := by
  cases h with
  | short h => exact .short h
  | producer q span n hc hn hn' he => exact .producer q span n hc ((hr _).trans hn) hn' he
  | unbacked loader span hc hb => exact .unbacked loader span hc hb

namespace Layout

variable {l l₁ l' : Layout} {c : Change} {cs : List Change}

structure Remains (l l' : Layout) : Prop where
  config : l'.config = l.config
  capacity : l'.capacity = l.capacity
  lives : ∀ id page, l.page id = some page → ∃ q, l'.page id = some q ∧ page.Continues q
  new : ∀ id, l.page id = none → l'.page id = none
  unloaded : ∀ id page, l'.page id = some page → page.loaded = false → l.page id = some page
  runs : ∀ k, l.runs k ≤ l'.runs k

namespace Remains

theorem of_page (hconfig : l'.config = l.config) (hcap : l'.capacity = l.capacity)
    (hpage : l'.page = l.page) (hruns : l'.runs = l.runs) : l.Remains l' where
  config := hconfig
  capacity := hcap
  lives _ page h := ⟨page, hpage ▸ h, .refl page⟩
  new _ h := hpage ▸ h
  unloaded _ _ h _ := hpage ▸ h
  runs k := le_of_eq (congrFun hruns k).symm

theorem refl (l : Layout) : l.Remains l := .of_page rfl rfl rfl rfl

theorem trans (h : l.Remains l₁) (h' : l₁.Remains l') : l.Remains l' where
  config := h'.config.trans h.config
  capacity := h'.capacity.trans h.capacity
  lives id page hpage := by
    obtain ⟨q, hq, hc⟩ := h.lives id page hpage
    obtain ⟨r, hr, hc'⟩ := h'.lives id q hq
    exact ⟨r, hr, hc.trans hc'⟩
  new id hpage := h'.new id (h.new id hpage)
  unloaded id page hpage hl := h.unloaded id page (h'.unloaded id page hpage hl) hl
  runs k := (h.runs k).trans (h'.runs k)

theorem page_of_update {id o : PageId} {q page : Page}
    (hq : Function.update l.page id (some q) o = some page) (hl : q.loaded = true)
    (hp : page.loaded = false) : l.page o = some page := by
  by_cases ho : o = id
  · subst ho
    rw [Function.update_self] at hq
    obtain rfl := Option.some.inj hq
    rw [hl] at hp
    cases hp
  · rwa [Function.update_of_ne ho] at hq

theorem unloaded_of_hidden (hm : l.Hidden l') (id : PageId) (page : Page)
    (hpage : l'.page id = some page) (hl : page.loaded = false) : l.page id = some page := by
  cases hm with
  | saveAnon | saveFile | keepFile | swapIn | readIn => exact page_of_update hpage rfl hl
  | _ => exact hpage

theorem unloaded_of_step (hm : l.ChangeStep c l') (hc : c.Lasting) (hr : ∀ o p, c ≠ .register o p)
    (id : PageId) (page : Page) (hpage : l'.page id = some page) (hl : page.loaded = false) :
    l.page id = some page := by
  cases hm with
  | register o p => exact absurd rfl (hr o p)
  | load => exact page_of_update hpage rfl hl
  | refresh | store | fill => exact hpage
  | destroyIdle | destroySlot | destroyFrame | destroyFile | destroyLost => exact hc.elim

theorem runs_of_hidden (hm : l.Hidden l') (k : Nat) : l.runs k ≤ l'.runs k := by
  cases hm with
  | rerun runs hruns => exact hruns k
  | _ => exact le_rfl

theorem runs_of_step (hm : l.ChangeStep c l') : l'.runs = l.runs := by
  cases hm <;> rfl

theorem of_course (hs : l.Sound) (hm : l.Course cs l')
    (hcs : ∀ c ∈ cs, c.Lasting ∧ ∀ o p, c ≠ .register o p) : l.Remains l' where
  config := config_of_course hm
  capacity := capacity_of_course hm
  lives id page hpage := continues_of_course hs hm (fun c hc => (hcs c hc).1) hpage
  new id hpage := by
    by_contra hne
    obtain ⟨q, hq⟩ := Option.ne_none_iff_exists'.mp hne
    obtain ⟨page, hreg, -⟩ := registered_of_course hs hm hpage hq
    exact (hcs _ hreg).2 id page rfl
  unloaded := by
    refine hm.preserves (P := fun k => ∀ id page, k.page id = some page → page.loaded = false →
      l.page id = some page) (fun _ _ h _ => h) ?_ ?_
    · exact fun hab ha id page hpage hl => ha id page (unloaded_of_hidden hab id page hpage hl) hl
    · intro a b c hc hab ha id page hpage hl
      exact ha id page
        (unloaded_of_step hab (hcs c hc).1 (hcs c hc).2 id page hpage hl) hl
  runs := by
    refine hm.preserves (P := fun k => ∀ i, l.runs i ≤ k.runs i) (fun _ => le_rfl) ?_ ?_
    · exact fun hab ha i => (ha i).trans (runs_of_hidden hab i)
    · exact fun _ hab ha i => (ha i).trans (le_of_eq (congrFun (runs_of_step hab) i).symm)

theorem isSome_eq (h : l.Remains l') (id : PageId) :
    (l'.page id).isSome = (l.page id).isSome := by
  cases hpage : l.page id with
  | none => rw [h.new id hpage]
  | some page =>
      obtain ⟨q, hq, -⟩ := h.lives id page hpage
      rw [hq]
      rfl

theorem writable_eq (h : l.Remains l') (id : PageId) :
    (l'.page id).map Page.writable = (l.page id).map Page.writable := by
  cases hpage : l.page id with
  | none => rw [h.new id hpage]
  | some page =>
      obtain ⟨q, hq, hc⟩ := h.lives id page hpage
      rw [hq, Option.map_some, Option.map_some, hc.writable]

theorem lacks {id : PageId} {page : Page} {runs' : Nat → Nat} {e : Errno} (h : l.Remains l')
    (hpage : l'.page id = some page) (he : page.Lacks l'.runs runs' e) :
    ∃ q, l.page id = some q ∧ q.Lacks l.runs runs' e := by
  have hsame (hl : page.loaded = false) : ∃ q, l.page id = some q ∧ q.Lacks l.runs runs' e :=
    ⟨page, h.unloaded id page hpage hl, he.mono h.runs⟩
  cases he with
  | short hshort =>
      obtain ⟨q, hq⟩ := Option.isSome_iff_exists.mp
        ((h.isSome_eq id).symm.trans (by rw [hpage]; rfl))
      exact ⟨q, hq, .short hshort⟩
  | producer q span n hc => exact hsame (by rw [Page.loaded, hc])
  | unbacked loader span hc => exact hsame (by rw [Page.loaded, hc])

end Remains

end Layout

namespace Machine

open Layout

variable {m : Machine} {s : SpaceId} {a sp : VirtAddr} {id : PageId} {page : Page} {p : PhysPage}
  {f : FrameId} {write : Bool}

end Machine

namespace Layout

variable {l l₁ l' : Layout} {s : SpaceId} {a cur : VirtAddr} {write : Bool} {k len n : Nat}
  {o : Option Failure}

/-- How an access of `len` bytes ends that got past `n` of them, all of which may
be accessed. -/
inductive Serves (l : Layout) (s : SpaceId) (a : VirtAddr) (k len n : Nat) (l' : Layout) :
    Option Failure → Prop
  | whole (hn : n = len) : Serves l s a k len n l' none
  | lacks {cur : VirtAddr} {page : Page} {e : Errno} (hn : n < len)
      (ha : a.add? (k + n) = some cur) (hpage : l.page ⟨s, cur.page⟩ = some page)
      (he : page.Lacks l.runs l'.runs e) : Serves l s a k len n l' (some (.errno e))
  | frameless (hn : n < len) (hc : l.capacity = 0) :
      Serves l s a k len n l' (some (.panic .outOfFrames))

theorem Serves.piece {c : Nat} (hle : c ≤ len) (hr : l.Remains l₁)
    (h : l₁.Serves s a (k + c) (len - c) n l' o) : l.Serves s a k len (c + n) l' o := by
  cases h with
  | whole hn => exact .whole (by omega)
  | lacks hn ha hpage he =>
      obtain ⟨q, hq, hlacks⟩ := hr.lacks hpage he
      exact .lacks (by omega) (Nat.add_assoc k c n ▸ ha) hq hlacks
  | frameless hn hc => exact .frameless (by omega) (hr.capacity ▸ hc)

end Layout

namespace Machine

open Layout

variable {m : Machine} {s : SpaceId} {a sp : VirtAddr} {page : Page} {write : Bool}

set_option maxRecDepth 5000 in
theorem checkPages_succ (pages : PageMap) (write : Bool) (n : Nat) (v : VirtAddr) :
    checkPages pages write (n + 1) v =
      match pages.get? v.page with
      | none => .error (.errno .efault)
      | some page =>
          if write && !page.writable then .error (.errno .eacces)
          else
            match v.add? pageSize with
            | none => .error (.panic .addOverflow)
            | some v' => checkPages pages write n v' := (rfl)

end Machine

namespace Op

variable {m : Machine} {s : SpaceId} {a : VirtAddr} {len : Nat} {write : Bool}

end Op

end Pager
