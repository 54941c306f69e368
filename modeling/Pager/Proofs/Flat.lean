import Pager.Proofs.Runs

namespace Pager.Flat

inductive Loaded (w : World) (φ : Flat) (id : PageId) : Flat → Prop
  | pending (loader : Option Loader) (b : PageBytes) (hc : φ id = some (.pending loader))
      (hb : w.Yields loader b) : Loaded w φ id (Function.update φ id (some (.bytes b)))
  | bytes (b : PageBytes) (hc : φ id = some (.bytes b)) : Loaded w φ id φ
  | file (n : Nat) (hc : φ id = some (.file n)) : Loaded w φ id φ

/-- An access to an address was allowed. The stack has grown if there was no
page. -/
inductive Touched (c : Config) (s : SpaceId) (a sp : VirtAddr) (w : World) (φ : Flat) : Flat → Prop
  | there {φ' : Flat} (h : Loaded w φ ⟨s, a.page⟩ φ') : Touched c s a sp w φ φ'
  | grown (hn : φ ⟨s, a.page⟩ = none) (hg : c.growsStack a sp = true) :
      Touched c s a sp w φ (Function.update φ ⟨s, a.page⟩ (some (.bytes (Bytes.zero pageSize))))

/-- An access to an address failed, perhaps after the stack has grown. -/
inductive Balked (c : Config) (s : SpaceId) (a sp : VirtAddr) (φ : Flat) : Flat → Prop
  | same : Balked c s a sp φ φ
  | grown (hn : φ ⟨s, a.page⟩ = none) (hg : c.growsStack a sp = true) :
      Balked c s a sp φ (Function.update φ ⟨s, a.page⟩ (some (.pending none)))

/-- Writes `data` at `a + k`, page by page, and stops where an access fails. -/
inductive Writes (c : Config) (s : SpaceId) (a sp : VirtAddr) :
    Nat → List UInt8 → List World → Option Failure → Flat → Flat → Prop
  | done {k : Nat} {φ : Flat} : Writes c s a sp k [] [] none φ φ
  | overflow {k : Nat} {data : List UInt8} {φ : Flat} (hd : data ≠ []) (ha : a.add? k = none) :
      Writes c s a sp k data [] (some (.panic .addOverflow)) φ φ
  | stops {k : Nat} {data : List UInt8} {e : Failure} {φ φ' : Flat} {cur : VirtAddr}
      (hd : data ≠ []) (ha : a.add? k = some cur) (hb : Balked c s cur sp φ φ') :
      Writes c s a sp k data [] (some e) φ φ'
  | piece {k n : Nat} {data : List UInt8} {w : World} {ws : List World} {e : Option Failure}
      {φ φ₁ φ' : Flat} {cur : VirtAddr} (hd : data ≠ []) (ha : a.add? k = some cur)
      (hn : n = Machine.inPage cur data.length) (ht : Touched c s cur sp w φ φ₁)
      (h : Writes c s a sp (k + n) (data.drop n) ws e
        (Function.update φ₁ ⟨s, cur.page⟩ ((φ₁ ⟨s, cur.page⟩).map
          (Cell.modify (fun b => Bytes.splice b cur.offset (data.take n))))) φ') :
      Writes c s a sp k data (w :: ws) e φ φ'

/-- Reads `len` bytes at `a + k`, page by page, and stops where an access fails.
Bytes of a page that has bytes of its own are those. -/
inductive Reads (c : Config) (s : SpaceId) (a sp : VirtAddr) :
    Nat → Nat → List World → List UInt8 → Option Failure → Flat → Flat → Prop
  | done {k : Nat} {φ : Flat} : Reads c s a sp k 0 [] [] none φ φ
  | overflow {k len : Nat} {φ : Flat} (hd : len ≠ 0) (ha : a.add? k = none) :
      Reads c s a sp k len [] [] (some (.panic .addOverflow)) φ φ
  | stops {k len : Nat} {e : Failure} {φ φ' : Flat} {cur : VirtAddr} (hd : len ≠ 0)
      (ha : a.add? k = some cur) (hb : Balked c s cur sp φ φ') :
      Reads c s a sp k len [] [] (some e) φ φ'
  | piece {k n len : Nat} {w : World} {ws : List World} {bs rest : List UInt8}
      {e : Option Failure} {φ φ₁ φ' : Flat} {cur : VirtAddr} (hd : len ≠ 0)
      (ha : a.add? k = some cur) (hn : n = Machine.inPage cur len)
      (ht : Touched c s cur sp w φ φ₁) (hl : bs.length = n)
      (hb : ∀ b, φ₁ ⟨s, cur.page⟩ = some (.bytes b) → bs = Bytes.slice b cur.offset n)
      (h : Reads c s a sp (k + n) (len - n) ws rest e φ₁ φ') :
      Reads c s a sp k len (w :: ws) (bs ++ rest) e φ φ'

def fresh (loader : Option Loader) : Kind → Cell
  | .anon => .pending loader
  | .file => .file 0

theorem cell_unloaded (kind : Kind) (loader : Option Loader) (b : PageBytes) :
    (Content.unloaded kind loader 0).cell b = fresh loader kind := by
  cases kind <;> rfl

def mapped (φ : Flat) (s : SpaceId) (v : VirtPage) (n : Nat) : Flat :=
  (List.range n).foldl
    (fun φ i => Function.update φ ⟨s, v.plus i⟩ (some (.file (if i = 0 then n else 0)))) φ

def without (φ : Flat) (s : SpaceId) (vs : List VirtPage) : Flat :=
  fun id => if id.space = s ∧ id.page ∈ vs then none else φ id

def emptied (φ : Flat) (s : SpaceId) : Flat := fun id => if id.space = s then none else φ id

def copied (φ : Flat) (src dst : SpaceId) : Flat :=
  fun id => if id.space = dst ∧ (φ ⟨src, id.page⟩).isSome then φ ⟨src, id.page⟩ else φ id

/-- Pages of `src` may be in `dst` too, with whatever contents. -/
def CopiedInPart (φ : Flat) (src dst : SpaceId) (φ' : Flat) : Prop :=
  ∀ id, φ' id = φ id ∨ id.space = dst ∧ φ id = none ∧ (φ ⟨src, id.page⟩).isSome

end Flat

namespace Op

/-- Operations on devices and on spaces that have no page yet. -/
def Silent : Op → Prop
  | create _ _ | refuse _ _ | armDisk _ _ | armFile _ _ _ _ _ _ => True
  | _ => False

def AllOrNothing : Op → Prop
  | alloc _ _ _ _ _ | claim _ _ | mmap _ _ _ _ _ _ | mmapDescriptor _ _ _ _ _ _ _ | fork _ _ _ _ =>
      True
  | _ => False

end Op

namespace Flat

/-- An operation on a memory without frames, which can fail wherever a device
can, and which takes from the report only how it ended, what the devices held
when a loader ran, and, to be compared, what was read. -/
inductive Next (c : Config) (φ : Flat) : Op → Report → Flat → Prop
  | silent {op : Op} {r : Report} (ho : op.Silent) (hr : r.failure = none) : Next c φ op r φ
  | refused {op : Op} {r : Report} {e : Failure} (ho : op.AllOrNothing) (hr : r.failure = some e) :
      Next c φ op r φ
  | alloc {s : SpaceId} {a : VirtAddr} {kind : Kind} {writable : Bool} {loader : Option Loader}
      {r : Report} (hr : r.failure = none) (hn : φ ⟨s, a.page⟩ = none) :
      Next c φ (.alloc s kind.type a writable loader) r
        (Function.update φ ⟨s, a.page⟩ (some (fresh loader kind)))
  | claim {s : SpaceId} {a : VirtAddr} {r : Report} {w : World} {φ' : Flat}
      (hr : r.failure = none) (hw : r.worlds = [w]) (h : Loaded w φ ⟨s, a.page⟩ φ') :
      Next c φ (.claim s a) r φ'
  | fault {s : SpaceId} {a sp : VirtAddr} {flags : FaultFlags} {r : Report} {w : World} {φ' : Flat}
      (hr : r.failure = none) (hw : r.worlds = [w]) (h : Touched c s a sp w φ φ') :
      Next c φ (.fault s a flags sp) r φ'
  | faultFails {s : SpaceId} {a sp : VirtAddr} {flags : FaultFlags} {r : Report} {e : Failure}
      {φ' : Flat} (hr : r.failure = some e) (h : Balked c s a sp φ φ') :
      Next c φ (.fault s a flags sp) r φ'
  | setUpStack {s : SpaceId} {a : VirtAddr} {r : Report} (hr : r.failure = none)
      (ha : c.stackTop.sub? pageSize = some a) (hn : φ ⟨s, a.page⟩ = none) :
      Next c φ (.setUpStack s) r
        (Function.update φ ⟨s, a.page⟩ (some (.bytes (Bytes.zero pageSize))))
  | setUpStackFails {s : SpaceId} {r : Report} {e : Failure} (hr : r.failure = some e) :
      Next c φ (.setUpStack s) r φ
  | setUpStackStops {s : SpaceId} {a : VirtAddr} {r : Report} {e : Failure}
      (hr : r.failure = some e) (ha : c.stackTop.sub? pageSize = some a)
      (hn : φ ⟨s, a.page⟩ = none) :
      Next c φ (.setUpStack s) r (Function.update φ ⟨s, a.page⟩ (some (.pending none)))
  | read {s : SpaceId} {a sp : VirtAddr} {len : Nat} {r : Report} {φ' : Flat}
      (h : Reads c s a sp 0 len r.worlds r.bytes r.failure φ φ') : Next c φ (.read s a len sp) r φ'
  | write {s : SpaceId} {a sp : VirtAddr} {data : List UInt8} {r : Report} {φ' : Flat}
      (h : Writes c s a sp 0 data r.worlds r.failure φ φ') : Next c φ (.write s a data sp) r φ'
  | mmap {s : SpaceId} {a : VirtAddr} {len offset : Nat} {writable : Bool} {file : FileId}
      {r : Report} (hr : r.failure = none)
      (hn : ∀ i < Machine.pagesFor len, φ ⟨s, a.page.plus i⟩ = none) :
      Next c φ (.mmap s a len writable file offset) r (mapped φ s a.page (Machine.pagesFor len))
  | mmapDescriptor {s : SpaceId} {a : VirtAddr} {len fd offset : Nat} {writable : Bool}
      {fds : Descriptors} {r : Report} (hr : r.failure = none)
      (hn : ∀ i < Machine.pagesFor len, φ ⟨s, a.page.plus i⟩ = none) :
      Next c φ (.mmapDescriptor s a len writable fd fds offset) r
        (mapped φ s a.page (Machine.pagesFor len))
  | munmap {s : SpaceId} {a : VirtAddr} {r : Report} (hr : r.failure = none) :
      Next c φ (.munmap s a) r (without φ s
        ((List.range (((φ ⟨s, a.page⟩).map Cell.span).getD 0)).map a.page.plus))
  | remove {s : SpaceId} {a : VirtAddr} {r : Report} (hr : r.failure = none) :
      Next c φ (.remove s a) r (Function.update φ ⟨s, a.page⟩ none)
  | kill {s : SpaceId} {order : List VirtPage} {r : Report} (hr : r.failure = none) :
      Next c φ (.kill s order) r (emptied φ s)
  | drop {s : SpaceId} {order : List VirtPage} {r : Report} (hr : r.failure = none) :
      Next c φ (.drop s order) r (emptied φ s)
  | fork {parent child : SpaceId} {refusals : Trap} {order : List VirtPage} {r : Report}
      (hr : r.failure = none) :
      Next c φ (.fork parent child refusals order) r (copied φ parent child)
  | copyFrom {src dst : SpaceId} {order : List VirtPage} {r : Report} (hr : r.failure = none) :
      Next c φ (.copyFrom src dst order) r (copied φ src dst)
  | copyFromFails {src dst : SpaceId} {order : List VirtPage} {r : Report} {e : Failure}
      {φ' : Flat} (hr : r.failure = some e) (h : CopiedInPart φ src dst φ') :
      Next c φ (.copyFrom src dst order) r φ'

inductive Runs (c : Config) : Flat → List (Op × Report) → Flat → Prop
  | nil (φ : Flat) : Runs c φ [] φ
  | cons {φ φ₁ φ' : Flat} {op : Op} {r : Report} {trail : List (Op × Report)}
      (h : Next c φ op r φ₁) (ht : Runs c φ₁ trail φ') : Runs c φ ((op, r) :: trail) φ'

variable {c : Config} {s : SpaceId} {a sp : VirtAddr} {w : World} {φ φ₁ φ' : Flat} {id o : PageId}
  {r : Report} {b : PageBytes}

theorem Loaded.other (h : Loaded w φ id φ') (ho : o ≠ id) : φ' o = φ o := by
  cases h with
  | pending => exact Function.update_of_ne ho ..
  | bytes | file => rfl

theorem Next.of_alloc {type : PageType} {writable : Bool} {loader : Option Loader}
    (h : Next c φ (.alloc s type a writable loader) r φ') (hr : r.failure = none) :
    ∃ kind : Kind, type = kind.type ∧
      φ' = Function.update φ ⟨s, a.page⟩ (some (fresh loader kind)) := by
  generalize hop : Op.alloc s type a writable loader = op at h
  cases h with
  | alloc =>
      cases hop
      exact ⟨_, rfl, rfl⟩
  | refused _ hr' => cases hr.symm.trans hr'
  | silent ho =>
      subst hop
      cases ho
  | _ => cases hop

theorem Next.of_claim (h : Next c φ (.claim s a) r φ') (hr : r.failure = none) :
    ∃ w, Loaded w φ ⟨s, a.page⟩ φ' := by
  cases h with
  | claim _ _ h => exact ⟨_, h⟩
  | refused _ hr' => cases hr.symm.trans hr'
  | silent ho => cases ho

theorem Touched.of_bytes (h : Touched c s a sp w φ φ₁) (hb : φ ⟨s, a.page⟩ = some (.bytes b)) :
    φ₁ = φ := by
  cases h with
  | there h =>
      cases h with
      | pending _ _ hc => cases hb.symm.trans hc
      | bytes | file => rfl
  | grown hn => cases hb.symm.trans hn

theorem Touched.of_pending (h : Touched c s a sp w φ φ₁)
    (hb : φ ⟨s, a.page⟩ = some (.pending none)) :
    φ₁ = Function.update φ ⟨s, a.page⟩ (some (.bytes (Bytes.zero pageSize))) := by
  cases h with
  | there h =>
      cases h with
      | pending loader b hc hy =>
          obtain rfl : none = loader := by simpa using hb.symm.trans hc
          obtain rfl : b = Bytes.zero pageSize := hy
          rfl
      | bytes _ hc => cases hb.symm.trans hc
      | file _ hc => cases hb.symm.trans hc
  | grown hn => cases hb.symm.trans hn

theorem Writes.of_nil {k : Nat} {ws : List World} {e : Option Failure}
    (h : Writes c s a sp k [] ws e φ φ') : φ' = φ := by
  cases h with
  | done => rfl
  | overflow hd | stops hd | piece hd => exact absurd rfl hd

theorem Reads.of_zero {k : Nat} {ws : List World} {bs : List UInt8} {e : Option Failure}
    (h : Reads c s a sp k 0 ws bs e φ φ') : bs = [] ∧ φ' = φ := by
  cases h with
  | done => exact ⟨rfl, rfl⟩
  | overflow hd | stops hd | piece hd => exact absurd rfl hd

theorem inPage_of_fits {n : Nat} (hle : a.offset + n ≤ pageSize) : Machine.inPage a n = n := by
  unfold Machine.inPage
  omega

theorem Next.of_write {data : List UInt8} (h : Next c φ (.write s a data sp) r φ')
    (hr : r.failure = none) (hd : data ≠ []) (hle : a.offset + data.length ≤ pageSize) :
    ∃ w φ₁, Touched c s a sp w φ φ₁ ∧ φ' = Function.update φ₁ ⟨s, a.page⟩
      ((φ₁ ⟨s, a.page⟩).map (Cell.modify (fun b => Bytes.splice b a.offset data))) := by
  cases h with
  | silent ho | refused ho => cases ho
  | write h =>
      rw [hr] at h
      generalize r.worlds = ws at h
      cases h with
      | done => exact absurd rfl hd
      | piece _ ha hn ht h =>
          obtain rfl := Option.some.inj (a.add?_zero.symm.trans ha)
          rw [inPage_of_fits hle] at hn
          subst hn
          rw [List.drop_length, List.take_length] at h
          exact ⟨_, _, ht, h.of_nil⟩

theorem Next.of_read {len : Nat} (h : Next c φ (.read s a len sp) r φ') (hr : r.failure = none)
    (hlen : len ≠ 0) (hle : a.offset + len ≤ pageSize) (hb : φ ⟨s, a.page⟩ = some (.bytes b)) :
    r.bytes = Bytes.slice b a.offset len ∧ φ' = φ := by
  cases h with
  | silent ho | refused ho => cases ho
  | read h =>
      rw [hr] at h
      generalize r.worlds = ws at h
      generalize r.bytes = bs at h ⊢
      cases h with
      | done => exact absurd rfl hlen
      | piece _ ha hn ht _ hbytes h =>
          obtain rfl := Option.some.inj (a.add?_zero.symm.trans ha)
          rw [inPage_of_fits hle] at hn
          subst hn
          obtain rfl := ht.of_bytes hb
          rw [Nat.sub_self] at h
          obtain ⟨rfl, rfl⟩ := h.of_zero
          exact ⟨by rw [List.append_nil, hbytes b hb], rfl⟩

theorem Runs.read_back {a' : VirtAddr} {data : List UInt8} {r₁ r₂ r₃ r₄ r₅ : Report}
    (h : Runs c (fun _ => none) [(.alloc s .anon a true none, r₁), (.write s a data sp, r₂),
      (.alloc s .anon a' true none, r₃), (.claim s a', r₄), (.read s a data.length sp, r₅)] φ)
    (hr : ∀ r ∈ [r₁, r₂, r₃, r₄, r₅], r.failure = none) (hd : data ≠ [])
    (hle : a.offset + data.length ≤ pageSize) (hne : a'.page ≠ a.page) : r₅.bytes = data := by
  have hid : (⟨s, a.page⟩ : PageId) ≠ ⟨s, a'.page⟩ := by simpa using hne.symm
  obtain _ | ⟨h₁, _ | ⟨h₂, _ | ⟨h₃, _ | ⟨h₄, _ | ⟨h₅, -⟩⟩⟩⟩⟩ := h
  obtain ⟨kind, hk, rfl⟩ := h₁.of_alloc (hr _ (by simp))
  obtain rfl : kind = .anon := by cases kind <;> first | rfl | cases hk
  obtain ⟨w, φ₁, ht, rfl⟩ := h₂.of_write (hr _ (by simp)) hd hle
  obtain rfl := ht.of_pending (Function.update_self ..)
  obtain ⟨kind, -, rfl⟩ := h₃.of_alloc (hr _ (by simp))
  obtain ⟨w', hl⟩ := h₄.of_claim (hr _ (by simp))
  have hb := hl.other hid
  simp only [Function.update_of_ne hid, Function.update_self, Option.map_some, Cell.modify] at hb
  have hlen : data.length ≠ 0 := (List.length_pos_iff.mpr hd).ne'
  rw [(h₅.of_read (hr _ (by simp)) hlen hle hb).1]
  exact Bytes.slice_splice _ hle

end Pager.Flat
