import Pager.Proofs.Buffers

namespace Pager

/-- Addresses that a program may have to itself: they begin behind the null one
and end below the kernel. -/
structure Config.InUser (c : Config) (a : VirtAddr) (len : Nat) : Prop where
  not_null : a.isNull = false
  word : a.toNat + len < wordBound
  below : a.toNat + len ≤ c.kernelBase.toNat

theorem Config.isUserRange_iff {c : Config} {a : VirtAddr} {len : Nat} :
    c.isUserRange a len = true ↔ c.InUser a len := by
  have hk := c.kernelBase.toNat_lt
  rw [isUserRange, Bool.and_eq_true, Bool.not_eq_true', decide_eq_true_iff]
  exact ⟨fun h => ⟨h.1, by omega, h.2⟩, fun h => ⟨h.not_null, h.below⟩⟩

theorem VirtAddr.toNat_start_page (a : VirtAddr) : a.page.start.toNat = a.toNat - a.offset := by
  have ha := a.val.toNat_lt
  change (a.val / 4096 * 4096).toNat = a.val.toNat - a.val.toNat % 4096
  simp only [UInt64.toNat_div, UInt64.toNat_mul, UInt64.reduceToNat]
  omega

theorem VirtPage.eq_of_toNat {v w : VirtPage} (h : v.toNat = w.toNat) : v = w :=
  congrArg VirtPage.mk (UInt64.toNat_inj.mp h)

def VirtAddr.pagesOf (a : VirtAddr) (len : Nat) : Nat :=
  (a.offset + len + (pageSize - 1)) / pageSize

theorem VirtAddr.exists_byte {a : VirtAddr} {len : Nat} {w : VirtPage} (hlen : 0 < len)
    (hword : a.toNat + len < wordBound) (hlo : a.page.toNat ≤ w.toNat)
    (hhi : w.toNat < a.page.toNat + a.pagesOf len) :
    ∃ b : VirtAddr, a.toNat ≤ b.toNat ∧ b.toNat < a.toNat + len ∧ b.page = w := by
  rw [toNat_page] at hlo hhi
  unfold pagesOf offset pageSize at hhi
  unfold pageSize at hlo
  have hlt : max a.toNat (w.toNat * 4096) < a.toNat + len := by omega
  have hb : (ofNat (max a.toNat (w.toNat * 4096))).toNat = max a.toNat (w.toNat * 4096) :=
    UInt64.toNat_ofNat_of_lt' (Nat.lt_trans hlt hword)
  refine ⟨ofNat (max a.toNat (w.toNat * 4096)), by omega, by omega, VirtPage.eq_of_toNat ?_⟩
  rw [toNat_page, hb]
  unfold pageSize
  omega

theorem VirtAddr.page_of_byte {a b : VirtAddr} {len : Nat} (hlo : a.toNat ≤ b.toNat)
    (hhi : b.toNat < a.toNat + len) :
    a.page.toNat ≤ b.page.toNat ∧ b.page.toNat < a.page.toNat + a.pagesOf len := by
  rw [toNat_page, toNat_page]
  unfold pagesOf offset pageSize
  omega

namespace PageMap

variable {pages : PageMap} {write : Bool} {v w : VirtPage} {e : Errno}

def denial? (pages : PageMap) (write : Bool) (v : VirtPage) : Option Errno :=
  match pages.get? v with
  | none => some .efault
  | some page => if write && !page.writable then some .eacces else none

theorem denial?_eq_none : pages.denial? write v = none ↔
    ∃ page, pages.get? v = some page ∧ (write = true → page.writable = true) := by
  unfold denial?
  cases pages.get? v with
  | none => simp only [reduceCtorEq, false_and, exists_false]
  | some page =>
      simp only [Option.some.injEq, exists_eq_left', ite_eq_right_iff, reduceCtorEq, imp_false,
        Bool.and_eq_true, Bool.not_eq_true', not_and, Bool.not_eq_false]

theorem denial?_eq_some : pages.denial? write v = some e ↔ pages.get? v = none ∧ e = .efault ∨
    ∃ page, pages.get? v = some page ∧ write = true ∧ page.writable = false ∧ e = .eacces := by
  unfold denial?
  cases pages.get? v with
  | none =>
      simp only [Option.some.injEq, true_and, reduceCtorEq, false_and, exists_false, or_false,
        @eq_comm _ Errno.efault]
  | some page =>
      simp only [reduceCtorEq, false_and, false_or, Option.some.injEq, exists_eq_left',
        Option.ite_none_right_eq_some, Bool.and_eq_true, Bool.not_eq_true', and_assoc,
        @eq_comm _ Errno.eacces]

def Open (pages : PageMap) (write : Bool) (lo hi : Nat) : Prop :=
  ∀ w : VirtPage, lo ≤ w.toNat → w.toNat < hi → pages.denial? write w = none

theorem Open.cons {hi : Nat} (hv : pages.denial? write v = none)
    (h : pages.Open write (v.toNat + 1) hi) : pages.Open write v.toNat hi := by
  intro w hlo hhi
  rcases Nat.eq_or_lt_of_le hlo with heq | hlt
  · rwa [← VirtPage.eq_of_toNat heq]
  · exact h w hlt hhi

end PageMap

namespace Machine

variable {m : Machine} {s : SpaceId} {a v v' : VirtAddr} {len : Nat} {write : Bool}
  {pages : PageMap}

theorem checkPages_next (hv : v.add? pageSize = some v') (n : Nat) :
    checkPages pages write (n + 1) v = match pages.denial? write v.page with
      | some e => .error (.errno e)
      | none => checkPages pages write n v' := by
  rw [checkPages_succ, PageMap.denial?, hv]
  cases pages.get? v.page with
  | none => rfl
  | some page =>
      dsimp only
      split <;> rfl

theorem checkPages_exact (pages : PageMap) (write : Bool) {n : Nat}
    (h : v.toNat + n * pageSize < wordBound) :
    checkPages pages write n v = .ok () ∧
        pages.Open write v.page.toNat (v.page.toNat + n) ∨
      ∃ w e, v.page.toNat ≤ w.toNat ∧ w.toNat < v.page.toNat + n ∧
        pages.denial? write w = some e ∧ pages.Open write v.page.toNat w.toNat ∧
        checkPages pages write n v = .error (.errno e) := by
  induction n generalizing v with
  | zero => exact .inl ⟨rfl, fun w hlo hhi => by omega⟩
  | succ n ih =>
      obtain ⟨v', hv'⟩ : ∃ v', v.add? pageSize = some v' := by
        rw [← Option.ne_none_iff_exists', Ne, VirtAddr.add?_eq_none, Nat.not_le]
        unfold pageSize at h ⊢
        omega
      have hto := VirtAddr.toNat_of_add? hv'
      have hpage : v'.page.toNat = v.page.toNat + 1 := by
        rw [VirtAddr.toNat_page, VirtAddr.toNat_page, hto]
        exact Nat.add_div_right _ (by decide)
      rw [checkPages_next hv']
      cases hd : pages.denial? write v.page with
      | some e => exact .inr ⟨v.page, e, le_rfl, by omega, hd, fun w hlo hhi => by omega, rfl⟩
      | none =>
          have hend : v'.toNat + n * pageSize < wordBound := by
            rw [hto]
            unfold pageSize at h ⊢
            omega
          rcases ih hend with ⟨hok, hopen⟩ | ⟨w, e, hlo, hhi, hw, hopen, he⟩
          · refine .inl ⟨hok, .cons hd ?_⟩
            rwa [hpage, Nat.add_assoc, Nat.add_comm 1] at hopen
          · rw [hpage] at hlo hhi hopen
            exact .inr ⟨w, e, by omega, by omega, hw, .cons hd hopen, he⟩

theorem admits_iff {b : VirtAddr} :
    m.layout.Admits s b write ↔ (m.pages s).denial? write b.page = none :=
  PageMap.denial?_eq_none.symm

/-- The lowest page of a buffer that may not be accessed has this byte of it. The
page is not registered, or it is to be written and may only be read. -/
structure FirstDenied (m : Machine) (s : SpaceId) (a : VirtAddr) (len : Nat) (write : Bool)
    (b : VirtAddr) (e : Errno) : Prop where
  ge : a.toNat ≤ b.toNat
  lt : b.toNat < a.toNat + len
  below : ∀ c : VirtAddr, a.toNat ≤ c.toNat → c.page.toNat < b.page.toNat →
    m.layout.Admits s c write
  reason : m.page? ⟨s, b.page⟩ = none ∧ e = .efault ∨
    ∃ page, m.page? ⟨s, b.page⟩ = some page ∧ write = true ∧ page.writable = false ∧ e = .eacces

namespace FirstDenied

variable {b b' : VirtAddr} {e e' : Errno}

theorem not_admits (h : m.FirstDenied s a len write b e) : ¬m.layout.Admits s b write := by
  rintro ⟨page, hpage, hw⟩
  rcases h.reason with ⟨hnone, -⟩ | ⟨q, hq, hwrite, hro, -⟩
  · exact Option.some_ne_none page (hpage.symm.trans hnone)
  · obtain rfl : page = q := Option.some.inj (hpage.symm.trans hq)
    rw [hw hwrite] at hro
    cases hro

theorem page_le (h : m.FirstDenied s a len write b e) (h' : m.FirstDenied s a len write b' e') :
    b.page.toNat ≤ b'.page.toNat := by
  by_contra hlt
  exact h'.not_admits (h.below b' h'.ge (Nat.lt_of_not_le hlt))

theorem unique (h : m.FirstDenied s a len write b e) (h' : m.FirstDenied s a len write b' e') :
    e = e' := by
  have hpage : b.page = b'.page :=
    VirtPage.eq_of_toNat (Nat.le_antisymm (h.page_le h') (h'.page_le h))
  have hd := PageMap.denial?_eq_some.mpr h.reason
  rw [hpage, PageMap.denial?_eq_some.mpr h'.reason] at hd
  exact (Option.some.inj hd).symm

end FirstDenied

/-- The buffer is empty, or it lies below the kernel and each of its bytes is in a
page that a program may access in this way. -/
def Granted (m : Machine) (s : SpaceId) (a : VirtAddr) (len : Nat) (write : Bool) : Prop :=
  len = 0 ∨ m.config.InUser a len ∧
    ∀ b : VirtAddr, a.toNat ≤ b.toNat → b.toNat < a.toNat + len → m.layout.Admits s b write

/-- Why a buffer is refused: its range is a bad one, or the lowest page that may not
be accessed is the reason. -/
inductive Refused (m : Machine) (s : SpaceId) (a : VirtAddr) (len : Nat) (write : Bool) :
    Errno → Prop
  | outside (hlen : 0 < len) (hr : ¬m.config.InUser a len) : Refused m s a len write .efault
  | denied {b : VirtAddr} {e : Errno} (hr : m.config.InUser a len)
      (hb : m.FirstDenied s a len write b e) : Refused m s a len write e

theorem Granted.not_refused (h : m.Granted s a len write) (e : Errno) :
    ¬m.Refused s a len write e := by
  rintro (⟨hlen, hr⟩ | ⟨hr, hb⟩)
  · rcases h with rfl | ⟨hin, -⟩
    · exact absurd hlen (Nat.lt_irrefl 0)
    · exact hr hin
  · rcases h with rfl | ⟨-, hall⟩
    · exact absurd (Nat.lt_of_le_of_lt hb.ge hb.lt) (Nat.lt_irrefl _)
    · exact hb.not_admits (hall _ hb.ge hb.lt)

theorem Refused.unique {e e' : Errno} (h : m.Refused s a len write e)
    (h' : m.Refused s a len write e') : e = e' := by
  cases h with
  | outside _ hr =>
      cases h' with
      | outside => rfl
      | denied hin => exact absurd hin hr
  | denied hin hb =>
      cases h' with
      | outside _ hr => exact absurd hin hr
      | denied _ hb' => exact hb.unique hb'

theorem checkBuffer_inUser (hk : m.config.kernelBase.toNat ≤ wordBound - pageSize) (hlen : 0 < len)
    (hr : m.config.InUser a len) :
    m.checkBuffer s a len write = .ok () ∧ m.Granted s a len write ∨
      ∃ e, m.checkBuffer s a len write = .error (.errno e) ∧ m.Refused s a len write e := by
  have hend : a.page.start.toNat + a.pagesOf len * pageSize < wordBound := by
    have := hr.below
    rw [VirtAddr.toNat_start_page]
    unfold VirtAddr.pagesOf VirtAddr.offset pageSize at *
    omega
  have hcheck : m.checkBuffer s a len write =
      checkPages (m.pages s) write (a.pagesOf len) a.page.start := by
    rw [checkBuffer, if_neg (by omega), if_pos (Config.isUserRange_iff.mpr hr)]
    rfl
  rw [hcheck]
  rcases checkPages_exact (m.pages s) write hend with ⟨hok, hopen⟩ | h
  · rw [page_start_page] at hopen
    refine .inl ⟨hok, .inr ⟨hr, fun b hlo hhi => admits_iff.mpr ?_⟩⟩
    obtain ⟨h₁, h₂⟩ := VirtAddr.page_of_byte hlo hhi
    exact hopen b.page h₁ h₂
  · obtain ⟨w, e, hlo, hhi, hw, hopen, he⟩ := h
    rw [page_start_page] at hlo hhi hopen
    obtain ⟨b, hb, hb', rfl⟩ := VirtAddr.exists_byte hlen hr.word hlo hhi
    refine .inr ⟨e, he, .denied hr ⟨hb, hb', fun c hc hcb => admits_iff.mpr ?_,
      PageMap.denial?_eq_some.mp hw⟩⟩
    refine hopen c.page ?_ hcb
    rw [VirtAddr.toNat_page, VirtAddr.toNat_page]
    exact Nat.div_le_div_right hc

theorem checkBuffer_cases (s : SpaceId) (a : VirtAddr) (len : Nat) (write : Bool)
    (hk : m.config.kernelBase.toNat ≤ wordBound - pageSize) :
    m.checkBuffer s a len write = .ok () ∧ m.Granted s a len write ∨
      ∃ e, m.checkBuffer s a len write = .error (.errno e) ∧ m.Refused s a len write e := by
  rcases Nat.eq_zero_or_pos len with rfl | hlen
  · exact .inl ⟨if_pos rfl, .inl rfl⟩
  · by_cases hr : m.config.InUser a len
    · exact checkBuffer_inUser hk hlen hr
    · refine .inr ⟨.efault, ?_, .outside hlen hr⟩
      rw [checkBuffer, if_neg (Nat.ne_of_gt hlen), if_neg (mt Config.isUserRange_iff.mp hr)]

/-- A buffer is accepted exactly if a program may access all of it. Otherwise the
error tells the reason, and no sum of addresses overflows. -/
theorem checkBuffer_exact (hk : m.config.kernelBase.toNat ≤ wordBound - pageSize) :
    (m.checkBuffer s a len write = .ok () ↔ m.Granted s a len write) ∧
      (∀ e, m.checkBuffer s a len write = .error (.errno e) ↔ m.Refused s a len write e) ∧
      ∀ q, m.checkBuffer s a len write ≠ .error (.panic q) := by
  rcases checkBuffer_cases s a len write hk with ⟨hok, hu⟩ | ⟨e, he, hr⟩
  · rw [hok]
    exact ⟨iff_of_true rfl hu, fun e => iff_of_false (by rintro ⟨⟩) (hu.not_refused e),
      by rintro _ ⟨⟩⟩
  · rw [he]
    refine ⟨iff_of_false (by rintro ⟨⟩) fun hu => hu.not_refused e hr, fun e' => ⟨?_, ?_⟩,
      by rintro _ ⟨⟩⟩
    · rintro ⟨⟩
      exact hr
    · intro hr'
      rw [hr.unique hr']

/-- The last two pages below the highest possible kernel, of which the upper one may
only be read. -/
def lastPages : Machine :=
  ((Op.alloc 0 .anon ⟨0xffffffffffffe000⟩ false none).run
    ((Op.alloc 0 .anon ⟨0xffffffffffffd000⟩ true none).run
      (.boot { kernelBase := ⟨0xfffffffffffff000⟩ } (.ofCapacity 1) none [])).2).2

theorem checkBuffer_exact_lastPages :
    lastPages.config.kernelBase.toNat ≤ wordBound - pageSize ∧
      lastPages.checkBuffer 0 ⟨0xffffffffffffdfff⟩ 4097 false = .ok () ∧
      lastPages.Granted 0 ⟨0xffffffffffffdfff⟩ 4097 false ∧
      lastPages.checkBuffer 0 ⟨0xffffffffffffdfff⟩ 2 true = .error (.errno .eacces) ∧
      lastPages.Refused 0 ⟨0xffffffffffffdfff⟩ 2 true .eacces ∧
      lastPages.checkBuffer 0 ⟨0xffffffffffffdfff⟩ 4098 false = .error (.errno .efault) ∧
      lastPages.Refused 0 ⟨0xffffffffffffdfff⟩ 4098 false .efault := by
  have hk : lastPages.config.kernelBase.toNat ≤ wordBound - pageSize := by decide
  have hread : lastPages.checkBuffer 0 ⟨0xffffffffffffdfff⟩ 4097 false = .ok () := by
    decide +kernel
  have hwrite : lastPages.checkBuffer 0 ⟨0xffffffffffffdfff⟩ 2 true = .error (.errno .eacces) := by
    decide +kernel
  have hlong : lastPages.checkBuffer 0 ⟨0xffffffffffffdfff⟩ 4098 false =
      .error (.errno .efault) := by
    decide +kernel
  exact ⟨hk, hread, (checkBuffer_exact hk).1.mp hread, hwrite,
    ((checkBuffer_exact hk).2.1 _).mp hwrite, hlong, ((checkBuffer_exact hk).2.1 _).mp hlong⟩

end Machine

end Pager
