import Pager.PageTable
import Mathlib.Data.Set.Card

namespace Pager

namespace Flag

variable {fs : List Flag} {i : Nat}

theorem getLsbD_union (fs : List Flag) (i : Nat) :
    (union fs).getLsbD i = fs.any fun f => decide (i = f.bit) := by
  have hfold (w : BitVec 64) : (fs.foldl (fun w f => w ||| f.mask) w).getLsbD i =
      (w.getLsbD i || fs.any fun f => decide (i = f.bit)) := by
    induction fs generalizing w with
    | nil => rw [List.foldl_nil, List.any_nil, Bool.or_false]
    | cons f fs ih =>
        rw [List.foldl_cons, ih, BitVec.getLsbD_or, getLsbD_mask, List.any_cons, Bool.or_assoc]
  rw [union, hfold, BitVec.getLsbD_zero, Bool.false_or]

theorem getLsbD_union_bit (f : Flag) : (union fs).getLsbD f.bit = decide (f ∈ fs) := by
  rw [getLsbD_union, Bool.eq_iff_iff, List.any_eq_true, decide_eq_true_iff]
  constructor
  · rintro ⟨g, hg, hfg⟩
    rwa [bit_injective (of_decide_eq_true hfg)]
  · exact fun hf => ⟨f, hf, decide_eq_true rfl⟩

theorem getLsbD_union_of_ne (hi : ∀ f : Flag, i ≠ f.bit) : (union fs).getLsbD i = false := by
  rw [getLsbD_union, List.any_eq_false]
  exact fun f _ => (decide_eq_true_iff.not).mpr (hi f)

theorem mem_all (f : Flag) : f ∈ all := by
  cases f <;> decide

theorem bit_lt (f : Flag) : f.bit < 64 := by
  cases f <;> decide

theorem eq_of_getLsbD {w w' : BitVec 64} (hf : ∀ f : Flag, w.getLsbD f.bit = w'.getLsbD f.bit)
    (hn : ∀ i, (∀ f : Flag, i ≠ f.bit) → w.getLsbD i = w'.getLsbD i) : w = w' := by
  apply BitVec.eq_of_getLsbD_eq
  intro i _
  by_cases hi : ∃ f : Flag, i = f.bit
  · obtain ⟨f, rfl⟩ := hi
    exact hf f
  · exact hn i (not_exists.mp hi)

end Flag

/-- The flags as they are read off the lowest sixteen bits, some of which are of the page. -/
def Entry.window (e : Entry) : BitVec 16 :=
  e.bits.setWidth 16 &&& (Flag.union Flag.all).setWidth 16

theorem Entry.window_eq (e : Entry) : e.window = e.flags.setWidth 16 :=
  BitVec.setWidth_and.symm

inductive Mark
  | accessed
  | dirty
deriving DecidableEq

def Mark.flag : Mark → Flag
  | accessed => .accessed
  | dirty => .dirty

/-- What a mapping says, apart from the word that it is packed into. -/
structure Translation where
  page : PhysPage
  writable : Bool
  accessed : Bool
  dirty : Bool
deriving DecidableEq

namespace Translation

def mark (x : Translation) : Mark → Bool → Translation
  | .accessed, on => { x with accessed := on }
  | .dirty, on => { x with dirty := on }

/-- Whatever is mapped is valid, and a user may read it. -/
def has (x : Translation) : Flag → Bool
  | .valid | .readable | .user => true
  | .writable => x.writable
  | .accessed => x.accessed
  | .dirty => x.dirty

def flags (x : Translation) : BitVec 64 := Flag.union (Flag.all.filter x.has)

def entry (x : Translation) : Entry := .pack x.page x.flags

variable (x : Translation) (b : Mark) (on : Bool) (f : Flag)

theorem page_mark : (x.mark b on).page = x.page := by
  cases b <;> rfl

theorem has_mark : (x.mark b on).has f = if b.flag = f then on else x.has f := by
  cases b <;> cases f <;> rfl

theorem getLsbD_flags : x.flags.getLsbD f.bit = x.has f := by
  rw [flags, Flag.getLsbD_union_bit, Bool.eq_iff_iff, decide_eq_true_iff, List.mem_filter]
  exact and_iff_right f.mem_all

theorem getLsbD_flags_of_ne {i : Nat} (hi : ∀ f : Flag, i ≠ f.bit) : x.flags.getLsbD i = false :=
  Flag.getLsbD_union_of_ne hi

theorem flags_and_all : x.flags &&& Flag.union Flag.all = x.flags := by
  refine Flag.eq_of_getLsbD (fun f => ?_) fun i hi => ?_
  · rw [BitVec.getLsbD_and, Flag.getLsbD_union_bit, decide_eq_true f.mem_all, Bool.and_true]
  · rw [BitVec.getLsbD_and, x.getLsbD_flags_of_ne hi, Bool.false_and]

theorem toNat_flags_lt : x.flags.toNat < 1024 := by
  rw [← flags_and_all, BitVec.toNat_and]
  exact Nat.lt_of_le_of_lt Nat.and_le_right (by decide)

theorem flags_mark : (x.mark b on).flags =
    if on then x.flags ||| b.flag.mask else x.flags &&& ~~~b.flag.mask := by
  refine Flag.eq_of_getLsbD (fun f => ?_) fun i hi => ?_
  · have hbit : f.bit = b.flag.bit ↔ b.flag = f :=
      ⟨fun h => (Flag.bit_injective h).symm, fun h => h ▸ rfl⟩
    rw [getLsbD_flags, has_mark]
    cases on with
    | false =>
        rw [if_neg Bool.false_ne_true, BitVec.getLsbD_and, BitVec.getLsbD_not, getLsbD_flags,
          Flag.getLsbD_mask, decide_eq_true f.bit_lt, Bool.true_and]
        by_cases h : b.flag = f <;> simp [h, hbit]
    | true =>
        rw [if_pos rfl, BitVec.getLsbD_or, getLsbD_flags, Flag.getLsbD_mask]
        by_cases h : b.flag = f <;> simp [h, hbit]
  · rw [getLsbD_flags_of_ne _ hi]
    cases on with
    | false =>
        rw [if_neg Bool.false_ne_true, BitVec.getLsbD_and, getLsbD_flags_of_ne _ hi, Bool.false_and]
    | true =>
        rw [if_pos rfl, BitVec.getLsbD_or, getLsbD_flags_of_ne _ hi, Flag.getLsbD_mask,
          decide_eq_false (hi b.flag), Bool.or_false]

theorem flags_entry : x.entry.flags = x.flags :=
  (Entry.flags_pack x.page x.flags).trans x.flags_and_all

theorem has_entry : x.entry.has f = x.has f :=
  (Entry.has_pack x.page x.flags f).trans (x.getLsbD_flags f)

variable {x}

theorem page_entry (hx : x.page.toNat < Entry.pageBound) : x.entry.page = x.page :=
  Entry.page_pack hx x.toNat_flags_lt

theorem set_entry (hx : x.page.toNat < Entry.pageBound) :
    x.entry.set b.flag on = (x.mark b on).entry := by
  rw [Entry.set, page_entry hx, flags_entry, entry, page_mark, flags_mark]

theorem entry_fresh (p : PhysPage) (writable : Bool) :
    entry ⟨p, writable, false, false⟩ = .fresh p writable := by
  cases writable <;> rfl

end Translation

namespace PageTable

/-- What is written down of a page table, with no thought of how it is stored. -/
abbrev Translations := VirtPage → Option Translation

/-- What is asked of a page table that changes it. -/
inductive Edit
  | install (v : VirtPage) (p : PhysPage) (writable : Bool)
  | clear (v : VirtPage)
  | mark (v : VirtPage) (b : Mark) (on : Bool)

namespace Edit

def target : Edit → VirtPage
  | install v _ _ | clear v | mark v _ _ => v

def apply (t : PageTable) : Edit → PageTable
  | install v p writable => t.install v p writable
  | clear v => t.clear v
  | mark v b on => t.set v b.flag on

def record (m : Translations) : Edit → Translations
  | install v p writable => Function.update m v (some ⟨p, writable, false, false⟩)
  | clear v => Function.update m v none
  | mark v b on => Function.update m v ((m v).map fun x => x.mark b on)

def Fits : Edit → Prop
  | install _ p _ => p.toNat < Entry.pageBound
  | clear _ | mark _ _ _ => True

end Edit

def after (edits : List Edit) : PageTable := edits.foldl Edit.apply {}

def recorded (edits : List Edit) : Translations := edits.foldl Edit.record fun _ => none

variable {t : PageTable} {m : Translations} {e : Edit} {edits : List Edit}

/-- The table holds these translations, each of them packed into a word. -/
structure Packs (t : PageTable) (m : Translations) : Prop where
  get? : ∀ v, t.get? v = (m v).map Translation.entry
  fits : ∀ v x, m v = some x → x.page.toNat < Entry.pageBound

theorem packs_empty : Packs {} fun _ => none where
  get? v := by simp [PageTable.get?]
  fits _ _ h := by cases h

namespace Packs

theorem update (h : t.Packs m) {t' : PageTable} {v : VirtPage} {y : Option Translation}
    (hfits : ∀ x, y = some x → x.page.toNat < Entry.pageBound)
    (hget : ∀ w, t'.get? w = if v = w then y.map Translation.entry else t.get? w) :
    t'.Packs (Function.update m v y) where
  get? w := by
    rw [hget]
    split
    next hw => rw [← hw, Function.update_self]
    next hw => rw [Function.update_of_ne (Ne.symm hw), h.get?]
  fits w x hx := by
    by_cases hw : w = v
    · rw [hw, Function.update_self] at hx
      exact hfits x hx
    · rw [Function.update_of_ne hw] at hx
      exact h.fits w x hx

theorem apply (h : t.Packs m) (he : e.Fits) : (e.apply t).Packs (e.record m) := by
  cases e with
  | install v p writable =>
      refine h.update (fun x hx => ?_) fun w => ?_
      · obtain rfl := Option.some.inj hx
        exact he
      · rw [Option.map_some, Translation.entry_fresh]
        exact get?_install t v w p writable
  | clear v => exact h.update (fun _ hx => by cases hx) fun w => get?_clear t v w
  | mark v b on =>
      refine h.update (fun y hy => ?_) fun w => ?_
      · obtain ⟨x, hx, rfl⟩ := Option.map_eq_some_iff.mp hy
        rw [Translation.page_mark]
        exact h.fits v x hx
      · -- the word is repacked, and that this loses nothing of it takes a page number that fits
        refine (get?_set t v w b.flag on).trans ?_
        rw [h.get? v, Option.map_map, Option.map_map]
        refine congrArg (fun o => if v = w then o else t.get? w) ?_
        exact Option.map_congr fun x hx => Translation.set_entry b on (h.fits v x hx)

theorem foldl (h : t.Packs m) (he : ∀ e ∈ edits, e.Fits) :
    (edits.foldl Edit.apply t).Packs (edits.foldl Edit.record m) := by
  induction edits generalizing t m with
  | nil => exact h
  | cons e edits ih =>
      exact ih (h.apply (he e List.mem_cons_self)) fun d hd => he d (List.mem_cons_of_mem e hd)

theorem translate (h : t.Packs m) (v : VirtPage) : t.translate v = (m v).map Translation.page := by
  rw [PageTable.translate, h.get?, Option.map_map]
  exact Option.map_congr fun x hx => Translation.page_entry (h.fits v x hx)

theorem has (h : t.Packs m) (v : VirtPage) (f : Flag) : t.has v f = (m v).any fun x => x.has f := by
  rw [PageTable.has, h.get?, Option.any_map]
  exact congrArg (fun p => (m v).any p) (funext fun x => x.has_entry f)

theorem flags (h : t.Packs m) (v : VirtPage) :
    (t.get? v).map Entry.flags = (m v).map Translation.flags := by
  rw [h.get?, Option.map_map]
  exact congrArg (fun g => (m v).map g) (funext Translation.flags_entry)

theorem window (h : t.Packs m) (v : VirtPage) :
    (t.get? v).map Entry.window = (m v).map fun x => x.flags.setWidth 16 := by
  have hflags := congrArg (Option.map fun w => w.setWidth 16) (h.flags v)
  rw [Option.map_map, Option.map_map] at hflags
  rw [funext Entry.window_eq]
  exact hflags

theorem encard (h : t.Packs m) : {v | (m v).isSome = true}.encard = t.size := by
  have hset : {v | (m v).isSome = true} = (t.entries.keys.toFinset : Set VirtPage) := by
    ext v
    have hv : t.entries[v]? = (m v).map Translation.entry := h.get? v
    rw [Finset.mem_coe, List.mem_toFinset, Std.ExtTreeMap.mem_keys,
      Std.ExtTreeMap.mem_iff_isSome_getElem?, hv, Option.isSome_map, Set.mem_ofPred_eq]
  rw [hset, Set.encard_coe_eq_coe_finsetCard, List.toFinset_card_of_nodup Std.ExtTreeMap.nodup_keys,
    Std.ExtTreeMap.length_keys, size]

end Packs

/-- All that can be asked of the table is answered as the translations tell. -/
structure Answers (t : PageTable) (m : Translations) : Prop where
  translate_eq : ∀ v, t.translate v = (m v).map Translation.page
  writable_eq : ∀ v, t.has v .writable = (m v).any Translation.writable
  accessed_eq : ∀ v, t.has v .accessed = (m v).any Translation.accessed
  dirty_eq : ∀ v, t.has v .dirty = (m v).any Translation.dirty
  flags_eq : ∀ v, (t.get? v).map Entry.flags = (m v).map Translation.flags
  window_eq : ∀ v, (t.get? v).map Entry.window = (m v).map fun x => x.flags.setWidth 16
  size_eq : {v | (m v).isSome = true}.encard = t.size

theorem Packs.answers (h : t.Packs m) : t.Answers m where
  translate_eq := h.translate
  writable_eq v := h.has v .writable
  accessed_eq v := h.has v .accessed
  dirty_eq v := h.has v .dirty
  flags_eq := h.flags
  window_eq := h.window
  size_eq := h.encard

def Edit.Does (t t' : PageTable) : Edit → Prop
  | install v p writable => t'.translate v = some p ∧ t'.has v .writable = writable ∧
      t'.has v .accessed = false ∧ t'.has v .dirty = false
  | clear v => t'.get? v = none
  | mark v b on => (t.get? v = none → t' = t) ∧ (∀ w, t'.translate w = t.translate w) ∧
      ∀ w f, t'.has w f = if v = w ∧ b.flag = f then on && (t.get? v).isSome else t.has w f

theorem translate_set (t : PageTable) (v w : VirtPage) (f : Flag) (on : Bool) :
    (t.set v f on).translate w = t.translate w := by
  rw [translate, translate, get?_set]
  split
  next hw =>
    rw [← hw, Option.map_map]
    exact congrArg (fun g => (t.get? v).map g) (funext fun e => e.page_set f on)
  next => rfl

theorem has_set (t : PageTable) (v w : VirtPage) (f g : Flag) (on : Bool) :
    (t.set v f on).has w g = if v = w ∧ f = g then on && (t.get? v).isSome else t.has w g := by
  rw [has, has, get?_set]
  by_cases hw : v = w
  · subst hw
    rw [if_pos rfl, Option.any_map]
    cases t.get? v with
    | none => simp
    | some e => simp [Entry.has_set]
  · rw [if_neg hw, if_neg fun h => hw h.1]

theorem Edit.does (he : e.Fits) : e.Does t (e.apply t) := by
  cases e with
  | install v p writable =>
      have hget : (t.install v p writable).get? v = some (.fresh p writable) := by
        rw [get?_install, if_pos rfl]
      have hhas (f : Flag) : (t.install v p writable).has v f = (Entry.fresh p writable).has f := by
        rw [has, hget, Option.any_some]
      refine ⟨?_, (hhas _).trans (Entry.has_fresh ..), (hhas _).trans (Entry.has_fresh ..),
        (hhas _).trans (Entry.has_fresh ..)⟩
      change (t.install v p writable).translate v = some p
      rw [translate, hget, Option.map_some, Entry.page_fresh he]
  | clear v => exact (get?_clear t v v).trans (if_pos rfl)
  | mark v b on =>
      refine ⟨fun hnone => ?_, fun w => translate_set t v w b.flag on,
        fun w f => has_set t v w b.flag f on⟩
      change t.set v b.flag on = t
      rw [set, hnone]

theorem Edit.get?_apply_of_ne {w : VirtPage} (hw : w ≠ e.target) :
    (e.apply t).get? w = t.get? w := by
  cases e with
  | install v p writable => exact (get?_install t v w p writable).trans (if_neg (Ne.symm hw))
  | clear v => exact (get?_clear t v w).trans (if_neg (Ne.symm hw))
  | mark v b on => exact (get?_set t v w b.flag on).trans (if_neg (Ne.symm hw))

/-- A page table is a map from pages to translations: whatever was done to it, it answers
as that map does, and the next edit changes the page that it names and no other. -/
theorem after_answers (h : ∀ e ∈ edits, e.Fits) :
    (after edits).Answers (recorded edits) ∧ ∀ e : Edit, e.Fits →
      e.Does (after edits) (e.apply (after edits)) ∧
        ∀ w, w ≠ e.target → (e.apply (after edits)).get? w = (after edits).get? w :=
  ⟨(packs_empty.foldl h).answers, fun _ he => ⟨Edit.does he, fun _ => Edit.get?_apply_of_ne⟩⟩

/-- The last page number that there is room for has ones in all the bits beside the flags,
and keeps them whatever is marked. -/
theorem after_answers_last_page :
    ∃ (edits : List Edit) (v w : VirtPage), v ≠ w ∧ (∀ e ∈ edits, e.Fits) ∧
      edits = [.install v ⟨0xfffffffffff⟩ true, .mark w .dirty true, .install w ⟨0⟩ false,
        .mark v .dirty true, .mark v .accessed true, .mark v .dirty false, .clear w] ∧
      (after edits).translate v = some ⟨0xfffffffffff⟩ ∧ (after edits).translate w = none ∧
      (after edits).has v .writable = true ∧ (after edits).has v .accessed = true ∧
      (after edits).has v .dirty = false ∧
      ((after edits).get? v).map Entry.flags = some 0x57#64 ∧
      ((after edits).set v .dirty true).translate v = some ⟨0xfffffffffff⟩ := by
  let edits : List Edit := [.install ⟨5⟩ ⟨0xfffffffffff⟩ true, .mark ⟨7⟩ .dirty true,
    .install ⟨7⟩ ⟨0⟩ false, .mark ⟨5⟩ .dirty true, .mark ⟨5⟩ .accessed true,
    .mark ⟨5⟩ .dirty false, .clear ⟨7⟩]
  have hfits : ∀ e ∈ edits, e.Fits := by
    simp [edits, Edit.Fits, PhysPage.toNat]
  obtain ⟨hall, hnext⟩ := after_answers hfits
  have hpage := hall.translate_eq ⟨5⟩
  obtain ⟨⟨-, hkept, -⟩, -⟩ := hnext (.mark ⟨5⟩ .dirty true) trivial
  exact ⟨edits, ⟨5⟩, ⟨7⟩, by decide, hfits, rfl, hpage, hall.translate_eq ⟨7⟩,
    hall.writable_eq ⟨5⟩, hall.accessed_eq ⟨5⟩, hall.dirty_eq ⟨5⟩, hall.flags_eq ⟨5⟩,
    (hkept ⟨5⟩).trans hpage⟩

example : (({} : PageTable).install ⟨5⟩ ⟨0x100000000000⟩ true).translate ⟨5⟩ = some ⟨0⟩ := by
  decide +kernel

end PageTable

end Pager
