import Mathlib.Algebra.BigOperators.Fin
import Mathlib.Data.Nat.Bitwise
import Mathlib.Tactic
import RdmaperfIso.Lib.Run

/-! Doorbell records. `mlx5_alloc_dbrec` cuts pages into records of a cache line, and keeps a bit
map of the free ones for each page; `mlx5_free_db` gives a record back, and a page with its last
one. The application's own allocators are left out. -/
namespace RdmaperfIso.Mlx5.Doorbell
open Run

/-- The size of a page, a power of two, and of a cache line. -/
structure Geometry where
  pageSize : ℕ
  lineSize : ℕ
  line_pos : 0 < lineSize
  line_le : lineSize ≤ pageSize

/-- Bit `n` of the array `free` is bit `n % 64` of its word `n / 64`. -/
structure Page where
  buf : ℕ
  numDb : ℕ
  useCnt : ℕ
  free : ℕ → Bool

namespace Geometry
variable (g : Geometry)

/-- Records of a page. -/
def pp : ℕ := g.pageSize / g.lineSize

/-- Words of the array `free`. -/
def nlong : ℕ := (g.pp + 63) / 64

/-- `__add_page`, with a buffer at the given address. -/
def newPage (buf : ℕ) : Page := ⟨buf, g.pp, 0, fun _ => true⟩

/-- `ffsl` of a word, less one. -/
def ffs (free : ℕ → Bool) (i : ℕ) : Option ℕ := (List.range 64).find? fun j => free (64 * i + j)

/-- The loop over words without a free bit, from word `i` on, with `left` words before the end
of the array. -/
def scan (free : ℕ → Bool) : (left i : ℕ) → Option ℕ
  | 0, _ => none
  | left + 1, i =>
    match ffs free i with
    | none => scan free left (i + 1)
    | some j => some (64 * i + j)

/-- What follows the label `found`. -/
def take (p : Page) : Option (Page × ℕ) :=
  (scan p.free g.nlong 0).map fun n =>
    ({ p with useCnt := p.useCnt + 1, free := Function.update p.free n false },
      p.buf + n * g.lineSize)

/-- The loop over the pages, for the first one that has room. -/
def takeFirst : List Page → Option (Option (List Page × ℕ))
  | [] => some none
  | p :: pages =>
    if p.useCnt < p.numDb then (g.take p).map fun r => some (r.1 :: pages, r.2)
    else (takeFirst pages).map fun r => r.map fun r => (p :: r.1, r.2)

/-- `mlx5_alloc_dbrec`; `mem` is the buffer that a new page would get. -/
def allocDbrec (pages : List Page) (mem : Option ℕ) : Option (List Page × Option ℕ) := do
  match ← g.takeFirst pages with
  | some r => some (r.1, some r.2)
  | none =>
    match mem with
    | none => some (pages, none)
    | some buf => (g.take (g.newPage buf)).map fun r => (r.1 :: pages, some r.2)

/-- `mlx5_free_db`. -/
def freeDb (db : ℕ) : List Page → Option (List Page)
  | [] => some []
  | p :: pages =>
    if db / g.pageSize * g.pageSize = p.buf then
      let i := (db - p.buf) / g.lineSize
      if i / 64 < g.nlong then
        if p.useCnt = 1 then some pages
        else
          some ({ p with useCnt := p.useCnt - 1, free := Function.update p.free i true } :: pages)
      else none
    else (freeDb db pages).map (p :: ·)

end Geometry

/-- The pages, and the records that the library holds. -/
structure Machine where
  pages : List Page
  live : List ℕ

inductive Event where
  | alloc (mem : Option ℕ)
  | free (db : ℕ)

/-- Memory for a page is aligned and does not belong to another page. Only a record that is held
is given back. -/
def step (g : Geometry) (m : Machine) : Event → Option Machine
  | .alloc mem =>
    if ∀ buf ∈ mem, g.pageSize ∣ buf ∧ ∀ p ∈ m.pages, p.buf ≠ buf then
      (g.allocDbrec m.pages mem).map fun r => ⟨r.1, r.2.toList ++ m.live⟩
    else none
  | .free db =>
    if db ∈ m.live then (g.freeDb db m.pages).map fun pages => ⟨pages, m.live.erase db⟩ else none

section Scan
variable {free : ℕ → Bool} {i j n left : ℕ}

theorem ffs_eq_some (h : Geometry.ffs free i = some j) :
    free (64 * i + j) = true ∧ j < 64 ∧ ∀ k < j, free (64 * i + k) = false := by
  obtain ⟨hj, hmem, hlt⟩ := List.find?_range_eq_some.mp h
  exact ⟨hj, List.mem_range.mp hmem, fun k hk => by simpa using hlt k hk⟩

theorem ffs_eq_none (h : Geometry.ffs free i = none) (hj : j < 64) : free (64 * i + j) = false := by
  simpa using List.find?_eq_none.mp h j (List.mem_range.mpr hj)

/-- The scan stops at the first free bit. -/
theorem scan_of_free (hfree : free n = true) (hi : i ≤ n / 64) (hn : n / 64 < i + left) :
    ∃ k ≤ n, Geometry.scan free left i = some k ∧ free k = true := by
  induction left generalizing i with
  | zero => omega
  | succ left ih =>
    rw [Geometry.scan]
    cases hffs : Geometry.ffs free i with
    | none =>
      have hne : n / 64 ≠ i := by
        intro heq
        have hbit := ffs_eq_none hffs (Nat.mod_lt n (by norm_num : 0 < 64))
        rw [← heq, Nat.div_add_mod, hfree] at hbit
        cases hbit
      exact ih (by omega) (by omega)
    | some j =>
      obtain ⟨hj, hlt, hfirst⟩ := ffs_eq_some hffs
      refine ⟨64 * i + j, ?_, rfl, hj⟩
      by_contra hgt
      have hword : n / 64 = i := by omega
      have hbit := hfirst (n - 64 * i) (by omega)
      rw [Nat.add_sub_cancel' (by omega), hfree] at hbit
      cases hbit

end Scan

section Pages
variable {g : Geometry} {p q : Page} {a n : ℕ}

/-- The records of a page that are held. -/
def Page.used (g : Geometry) (p : Page) : Finset ℕ :=
  (Finset.range g.pp).filter fun n => p.free n = false

structure Page.Sound (g : Geometry) (p : Page) : Prop where
  aligned : g.pageSize ∣ p.buf
  num_eq : p.numDb = g.pp
  count : p.useCnt = (p.used g).card

/-- A record of the page that is held. -/
def IsRecord (g : Geometry) (p : Page) (a : ℕ) : Prop := ∃ n ∈ p.used g, a = p.buf + n * g.lineSize

theorem mem_used : n ∈ p.used g ↔ n < g.pp ∧ p.free n = false := by
  simp [Page.used]

theorem record_le (hn : n < g.pp) : n * g.lineSize + g.lineSize ≤ g.pageSize := by
  have h : (n + 1) * g.lineSize ≤ g.pp * g.lineSize := Nat.mul_le_mul_right _ hn
  have hpp : g.pp * g.lineSize ≤ g.pageSize := Nat.div_mul_le_self _ _
  rw [Nat.add_mul, Nat.one_mul] at h
  exact h.trans hpp

/-- The page of a record is found from its address. -/
theorem page_of_record (hbuf : g.pageSize ∣ p.buf) (hn : n < g.pp) :
    (p.buf + n * g.lineSize) / g.pageSize * g.pageSize = p.buf := by
  have hle := record_le hn
  have hline := g.line_pos
  obtain ⟨k, hk⟩ := hbuf
  rw [hk, Nat.mul_add_div (by omega), Nat.div_eq_of_lt (by omega), Nat.add_zero, Nat.mul_comm]

theorem IsRecord.page (h : IsRecord g p a) (hp : p.Sound g) :
    a / g.pageSize * g.pageSize = p.buf := by
  obtain ⟨n, hn, rfl⟩ := h
  exact page_of_record hp.aligned (mem_used.mp hn).1

theorem div_of_record (g : Geometry) (p : Page) (n : ℕ) :
    (p.buf + n * g.lineSize - p.buf) / g.lineSize = n := by
  rw [Nat.add_sub_cancel_left, Nat.mul_div_cancel _ g.line_pos]

/-- Record `n` is handed out. -/
def Page.taken (p : Page) (n : ℕ) : Page :=
  { p with useCnt := p.useCnt + 1, free := Function.update p.free n false }

/-- Record `n` is given back. -/
def Page.freed (p : Page) (n : ℕ) : Page :=
  { p with useCnt := p.useCnt - 1, free := Function.update p.free n true }

theorem used_taken (hn : n < g.pp) : (p.taken n).used g = insert n (p.used g) := by
  ext k
  rw [Finset.mem_insert, mem_used, mem_used]
  by_cases hk : k = n
  · subst hk
    simp [Page.taken, hn]
  · simp [Page.taken, hk]

theorem used_freed : (p.freed n).used g = (p.used g).erase n := by
  ext k
  rw [Finset.mem_erase, mem_used, mem_used]
  by_cases hk : k = n
  · subst hk
    simp [Page.freed]
  · simp [Page.freed, hk]

theorem Page.Sound.taken (hp : p.Sound g) (hn : n < g.pp) (hfree : p.free n = true) :
    (p.taken n).Sound g where
  aligned := hp.aligned
  num_eq := hp.num_eq
  count := by
    have hnot : n ∉ p.used g := fun h => by simp [mem_used, hfree] at h
    rw [used_taken hn, Finset.card_insert_of_notMem hnot, ← hp.count]
    rfl

theorem Page.Sound.freed (hp : p.Sound g) (hn : n ∈ p.used g) : (p.freed n).Sound g where
  aligned := hp.aligned
  num_eq := hp.num_eq
  count := by
    rw [used_freed, Finset.card_erase_of_mem hn, ← hp.count]
    rfl

theorem isRecord_taken (hn : n < g.pp) :
    IsRecord g (p.taken n) a ↔ a = p.buf + n * g.lineSize ∨ IsRecord g p a := by
  simp only [IsRecord, used_taken hn, Finset.mem_insert, exists_eq_or_imp]
  rfl

theorem isRecord_freed :
    IsRecord g (p.freed n) a ↔ a ≠ p.buf + n * g.lineSize ∧ IsRecord g p a := by
  have hline := g.line_pos
  simp only [IsRecord, used_freed, Finset.mem_erase]
  constructor
  · rintro ⟨k, ⟨hne, hk⟩, rfl⟩
    refine ⟨fun heq => hne ?_, k, hk, rfl⟩
    exact Nat.eq_of_mul_eq_mul_right hline (Nat.add_left_cancel heq)
  · rintro ⟨hne, k, hk, rfl⟩
    exact ⟨k, ⟨fun heq => hne (heq ▸ rfl), hk⟩, rfl⟩

/-- A page that is not full has a free record, and the scan finds one. -/
theorem take_of_room (hp : p.Sound g) (hroom : p.useCnt < p.numDb) :
    ∃ n < g.pp, p.free n = true ∧ g.take p = some (p.taken n, p.buf + n * g.lineSize) := by
  have hlt : (p.used g).card < (Finset.range g.pp).card := by
    rw [Finset.card_range, ← hp.count, ← hp.num_eq]
    exact hroom
  obtain ⟨n, hn, hnot⟩ := Finset.exists_mem_notMem_of_card_lt_card hlt
  have hn := Finset.mem_range.mp hn
  have hfree : p.free n = true := by
    by_contra hf
    exact hnot (mem_used.mpr ⟨hn, by simpa using hf⟩)
  have hword : n / 64 < 0 + g.nlong := by
    unfold Geometry.nlong
    omega
  obtain ⟨k, hk, hscan, hkfree⟩ := scan_of_free hfree (Nat.zero_le _) hword
  exact ⟨k, hk.trans_lt hn, hkfree, by rw [Geometry.take, hscan]; rfl⟩

end Pages

section Lists
variable {g : Geometry} {pages l₁ l₂ : List Page} {p p' : Page} {a n : ℕ}

/-- A record of one of the pages that is held. -/
def Holds (g : Geometry) (pages : List Page) (a : ℕ) : Prop := ∃ p ∈ pages, IsRecord g p a

theorem holds_append_cons :
    Holds g (l₁ ++ p :: l₂) a ↔ IsRecord g p a ∨ Holds g (l₁ ++ l₂) a := by
  simp only [Holds, List.mem_append, List.mem_cons, or_and_right, exists_or, exists_eq_left]
  exact or_left_comm

/-- The first page with room gives one of its free records, or all pages are full. -/
theorem takeFirst_spec (hp : ∀ p ∈ pages, p.Sound g) :
    g.takeFirst pages = some none ∨ ∃ l₁ p l₂ n, pages = l₁ ++ p :: l₂ ∧ n < g.pp ∧
      p.free n = true ∧
      g.takeFirst pages = some (some (l₁ ++ p.taken n :: l₂, p.buf + n * g.lineSize)) := by
  induction pages with
  | nil => exact .inl rfl
  | cons p pages ih =>
    obtain ⟨hp, hrest⟩ := List.forall_mem_cons.mp hp
    rw [Geometry.takeFirst]
    split_ifs with hroom
    · obtain ⟨n, hn, hfree, htake⟩ := take_of_room hp hroom
      exact .inr ⟨[], p, pages, n, rfl, hn, hfree, by rw [htake]; rfl⟩
    · rcases ih hrest with hnone | ⟨l₁, q, l₂, n, rfl, hn, hfree, htake⟩
      · exact .inl (by rw [hnone]; rfl)
      · exact .inr ⟨p :: l₁, q, l₂, n, rfl, hn, hfree, by rw [htake]; rfl⟩

/-- A record goes back to its page, and a page with its last record goes away. -/
theorem freeDb_spec (hp : p.Sound g) (hn : n ∈ p.used g) (hl : ∀ q ∈ l₁, q.buf ≠ p.buf) :
    g.freeDb (p.buf + n * g.lineSize) (l₁ ++ p :: l₂) =
      some (l₁ ++ if p.useCnt = 1 then l₂ else p.freed n :: l₂) := by
  have hlt := (mem_used.mp hn).1
  induction l₁ with
  | nil =>
    have hword : n / 64 < g.nlong := by
      unfold Geometry.nlong
      omega
    simp only [List.nil_append, Geometry.freeDb, page_of_record hp.aligned hlt, if_true,
      div_of_record, hword]
    split_ifs <;> rfl
  | cons q l₁ ih =>
    obtain ⟨hq, hl⟩ := List.forall_mem_cons.mp hl
    rw [List.cons_append, Geometry.freeDb, page_of_record hp.aligned hlt, if_neg hq.symm, ih hl]
    rfl

end Lists

section Invariant
variable {g : Geometry} {m m' : Machine} {l₁ l₂ : List Page} {p p' : Page} {a n : ℕ}

/-- The pages are apart and in use, and exactly the records that the library holds are taken. -/
structure Inv (g : Geometry) (m : Machine) : Prop where
  sound : ∀ p ∈ m.pages, p.Sound g ∧ 0 < p.useCnt
  apart : (m.pages.map Page.buf).Nodup
  nodup : m.live.Nodup
  live_iff : ∀ a, a ∈ m.live ↔ Holds g m.pages a

/-- A free record is not held on any page. -/
theorem not_holds (hs : ∀ q ∈ l₁ ++ p :: l₂, q.Sound g) (hd : ((l₁ ++ p :: l₂).map Page.buf).Nodup)
    (hn : n < g.pp) (hfree : p.free n = true) :
    ¬ Holds g (l₁ ++ p :: l₂) (p.buf + n * g.lineSize) := by
  rintro ⟨q, hq, hrec⟩
  have hbuf : p.buf = q.buf := by
    rw [← hrec.page (hs q hq), page_of_record (hs p (by simp)).aligned hn]
  obtain rfl : p = q := List.inj_on_of_nodup_map hd (by simp) hq hbuf
  obtain ⟨k, hk, heq⟩ := hrec
  obtain rfl : n = k := Nat.eq_of_mul_eq_mul_right g.line_pos (Nat.add_left_cancel heq)
  rw [mem_used, hfree] at hk
  exact absurd hk.2 (by simp)

/-- A page that has a free record hands it out. -/
theorem Inv.take (hs : ∀ q ∈ l₁ ++ p :: l₂, q.Sound g) (hu : ∀ q ∈ l₁ ++ l₂, 0 < q.useCnt)
    (hd : ((l₁ ++ p :: l₂).map Page.buf).Nodup) {live : List ℕ} (hnodup : live.Nodup)
    (hlive : ∀ a, a ∈ live ↔ Holds g (l₁ ++ p :: l₂) a) (hn : n < g.pp) (hfree : p.free n = true) :
    Inv g ⟨l₁ ++ p.taken n :: l₂, (p.buf + n * g.lineSize) :: live⟩ := by
  have hfresh := not_holds hs hd hn hfree
  constructor
  · intro q hq
    simp only [List.mem_append, List.mem_cons] at hq hs hu
    rcases hq with hq | rfl | hq
    · exact ⟨hs q (.inl hq), hu q (.inl hq)⟩
    · exact ⟨(hs p (.inr (.inl rfl))).taken hn hfree, Nat.succ_pos _⟩
    · exact ⟨hs q (.inr (.inr hq)), hu q (.inr hq)⟩
  · simpa [Page.taken] using hd
  · exact List.nodup_cons.mpr ⟨fun h => hfresh ((hlive _).mp h), hnodup⟩
  · intro a
    rw [List.mem_cons, hlive, holds_append_cons, holds_append_cons, isRecord_taken hn, or_assoc]

theorem Inv.alloc (h : Inv g m) {mem : Option ℕ}
    (hmem : ∀ buf ∈ mem, g.pageSize ∣ buf ∧ ∀ p ∈ m.pages, p.buf ≠ buf) :
    ∃ m', step g m (.alloc mem) = some m' ∧ Inv g m' ∧
      (mem ≠ none → ∃ a, m'.live = a :: m.live) := by
  have hs : ∀ p ∈ m.pages, p.Sound g := fun p hp => (h.sound p hp).1
  simp only [step, if_pos hmem, Geometry.allocDbrec]
  rcases takeFirst_spec hs with hnone | ⟨l₁, p, l₂, n, hpages, hn, hfree, htake⟩
  · simp only [hnone, Option.bind_eq_bind, Option.bind_some]
    cases mem with
    | none => exact ⟨m, rfl, h, fun hne => absurd rfl hne⟩
    | some buf =>
      obtain ⟨hbuf, hother⟩ := hmem buf rfl
      have hnew : (g.newPage buf).Sound g := ⟨hbuf, rfl, by simp [Page.used, Geometry.newPage]⟩
      have hpp : 0 < g.pp := Nat.div_pos g.line_le g.line_pos
      obtain ⟨n, hn, hfree, htake⟩ := take_of_room hnew hpp
      simp only [htake, Option.map_some]
      have hapart : (([] ++ g.newPage buf :: m.pages).map Page.buf).Nodup := by
        refine List.nodup_cons.mpr ⟨?_, h.apart⟩
        simpa [Geometry.newPage] using fun q hq => hother q hq
      have hlive (a : ℕ) : a ∈ m.live ↔ Holds g ([] ++ g.newPage buf :: m.pages) a := by
        have hempty : ¬ IsRecord g (g.newPage buf) a := by
          rintro ⟨k, hk, -⟩
          simp [mem_used, Geometry.newPage] at hk
        rw [h.live_iff, holds_append_cons, List.nil_append]
        exact (or_iff_right hempty).symm
      exact ⟨_, rfl, Inv.take (List.forall_mem_cons.mpr ⟨hnew, hs⟩)
        (fun q hq => (h.sound q hq).2) hapart h.nodup hlive hn hfree, fun _ => ⟨_, rfl⟩⟩
  · simp only [htake, Option.bind_eq_bind, Option.bind_some, Option.map_some]
    rw [hpages] at hs
    have hapart := h.apart
    have hlive := h.live_iff
    rw [hpages] at hapart hlive
    refine ⟨_, rfl, Inv.take hs (fun q hq => ?_) hapart h.nodup hlive hn hfree, fun _ => ⟨_, rfl⟩⟩
    refine (h.sound q ?_).2
    rw [hpages]
    simp only [List.mem_append, List.mem_cons] at hq ⊢
    tauto

theorem Inv.free (h : Inv g m) (ha : a ∈ m.live) :
    ∃ m', step g m (.free a) = some m' ∧ Inv g m' := by
  obtain ⟨p, hp, n, hn, rfl⟩ := (h.live_iff a).mp ha
  obtain ⟨l₁, l₂, hpages⟩ := List.append_of_mem hp
  obtain ⟨hsp, hpos⟩ := h.sound p hp
  have hsound := h.sound
  have hapart := h.apart
  have hlive := h.live_iff
  rw [hpages] at hsound hapart hlive
  have hl : ∀ q ∈ l₁, q.buf ≠ p.buf := by
    intro q hq heq
    rw [List.map_append, List.nodup_append] at hapart
    exact hapart.2.2 q.buf (List.mem_map_of_mem hq) p.buf (by simp) heq
  -- Other pages do not hold this record.
  have hothers : ¬ Holds g (l₁ ++ l₂) (p.buf + n * g.lineSize) := by
    rintro ⟨q, hq, hrec⟩
    have hmem : q ∈ l₁ ++ p :: l₂ := by
      simp only [List.mem_append, List.mem_cons] at hq ⊢
      tauto
    have hbuf : q.buf = p.buf := by
      rw [← hrec.page (hsound q hmem).1, page_of_record hsp.aligned (mem_used.mp hn).1]
    obtain rfl : q = p := List.inj_on_of_nodup_map hapart hmem (by simp) hbuf
    have hnodup : (l₁ ++ q :: l₂).Nodup := List.Nodup.of_map _ hapart
    exact (List.nodup_middle.mp hnodup).notMem hq
  have hfreed (a : ℕ) : a ∈ m.live.erase (p.buf + n * g.lineSize) ↔
      Holds g (l₁ ++ p.freed n :: l₂) a := by
    rw [h.nodup.mem_erase_iff, hlive, holds_append_cons, holds_append_cons, isRecord_freed]
    constructor
    · rintro ⟨hne, hrec | hrec⟩
      · exact .inl ⟨hne, hrec⟩
      · exact .inr hrec
    · rintro (⟨hne, hrec⟩ | hrec)
      · exact ⟨hne, .inl hrec⟩
      · exact ⟨fun heq => hothers (heq ▸ hrec), .inr hrec⟩
  have hcount : p.useCnt - 1 = ((p.freed n).used g).card := (hsp.freed hn).count
  have hrest : ∀ q ∈ l₁ ++ l₂, q.Sound g ∧ 0 < q.useCnt := by
    intro q hq
    apply hsound
    simp only [List.mem_append, List.mem_cons] at hq ⊢
    tauto
  refine ⟨_, by rw [step, if_pos ha, hpages, freeDb_spec hsp hn hl]; rfl, ?_⟩
  split_ifs with hlast
  · have hempty (a : ℕ) : ¬ IsRecord g (p.freed n) a := by
      rintro ⟨k, hk, -⟩
      rw [hlast] at hcount
      rw [Finset.card_eq_zero.mp hcount.symm] at hk
      exact absurd hk (Finset.notMem_empty k)
    refine ⟨hrest, ?_, h.nodup.erase _, fun a => ?_⟩
    · exact hapart.sublist (((List.sublist_cons_self p l₂).append_left l₁).map Page.buf)
    · rw [hfreed, holds_append_cons]
      exact or_iff_right (hempty a)
  · refine ⟨fun q hq => ?_, ?_, h.nodup.erase _, hfreed⟩
    · simp only [List.mem_append, List.mem_cons] at hq hrest
      rcases hq with hq | rfl | hq
      · exact hrest q (.inl hq)
      · exact ⟨hsp.freed hn, show 0 < p.useCnt - 1 by omega⟩
      · exact hrest q (.inr hq)
    · simpa [Page.freed] using hapart

theorem step_inv (m : Machine) (e : Event) (m' : Machine) (h : Inv g m)
    (hs : step g m e = some m') : Inv g m' := by
  cases e with
  | alloc mem =>
    have hmem : ∀ buf ∈ mem, g.pageSize ∣ buf ∧ ∀ p ∈ m.pages, p.buf ≠ buf := by
      by_contra hmem
      rw [step, if_neg hmem] at hs
      cases hs
    obtain ⟨m'', hs', hinv, -⟩ := h.alloc hmem
    obtain rfl := Option.some.inj (hs.symm.trans hs')
    exact hinv
  | free db =>
    have hdb : db ∈ m.live := by
      by_contra hdb
      rw [step, if_neg hdb] at hs
      cases hs
    obtain ⟨m'', hs', hinv⟩ := h.free hdb
    obtain rfl := Option.some.inj (hs.symm.trans hs')
    exact hinv

theorem run_inv {es : List Event} (hrun : run (step g) ⟨[], []⟩ es = some m) : Inv g m := by
  have hinit : Inv g ⟨[], []⟩ := ⟨by simp, by simp, by simp, by simp [Holds]⟩
  have hall : Meets (step g) (fun _ _ => True) ⟨[], []⟩ es := meets_of_forall fun _ _ => trivial
  exact run_invariant (fun m e m' h _ hs => step_inv m e m' h hs) hinit hall hrun

theorem mul_apart {x y : ℕ} (h : x ≠ y) (k : ℕ) : x * k + k ≤ y * k ∨ y * k + k ≤ x * k := by
  rw [← Nat.succ_mul, ← Nat.succ_mul]
  rcases Nat.lt_or_gt_of_ne h with hlt | hlt
  · exact .inl (Nat.mul_le_mul_right k hlt)
  · exact .inr (Nat.mul_le_mul_right k hlt)

/-- Two records that are held are a cache line apart. -/
theorem Inv.spaced (h : Inv g m) {b : ℕ} (ha : a ∈ m.live) (hb : b ∈ m.live) (hne : a ≠ b) :
    a + g.lineSize ≤ b ∨ b + g.lineSize ≤ a := by
  obtain ⟨p, hp, n, hn, rfl⟩ := (h.live_iff a).mp ha
  obtain ⟨q, hq, k, hk, rfl⟩ := (h.live_iff b).mp hb
  have hn := record_le (mem_used.mp hn).1
  have hk := record_le (mem_used.mp hk).1
  by_cases hbuf : p.buf = q.buf
  · rw [hbuf] at hne ⊢
    have hapart := mul_apart (fun heq : n = k => hne (heq ▸ rfl)) g.lineSize
    omega
  · obtain ⟨i, hi⟩ := (h.sound p hp).1.aligned
    obtain ⟨j, hj⟩ := (h.sound q hq).1.aligned
    have hapart := mul_apart (fun heq : i = j => hbuf (by rw [hi, hj, heq])) g.pageSize
    rw [Nat.mul_comm] at hi hj
    omega

end Invariant

/-- However records are allocated and given back, those that are held never share a cache line,
they lie in pages that have not been given back, and every page that is kept has one. No call is
undefined, and an allocation succeeds whenever there is memory for a page. -/
theorem dbrec_safe (g : Geometry) {es : List Event} {m : Machine}
    (hrun : run (step g) ⟨[], []⟩ es = some m) :
    m.live.Pairwise (fun a b => a + g.lineSize ≤ b ∨ b + g.lineSize ≤ a) ∧
      (∀ a ∈ m.live, ∃ p ∈ m.pages, p.buf ≤ a ∧ a + g.lineSize ≤ p.buf + g.pageSize) ∧
      (∀ p ∈ m.pages, ∃ a ∈ m.live, p.buf ≤ a ∧ a < p.buf + g.pageSize) ∧
      (∀ db ∈ m.live, ∃ m', step g m (.free db) = some m') ∧
      ∀ mem : Option ℕ, (∀ buf ∈ mem, g.pageSize ∣ buf ∧ ∀ p ∈ m.pages, p.buf ≠ buf) →
        ∃ m', step g m (.alloc mem) = some m' ∧ (mem ≠ none → ∃ a, m'.live = a :: m.live) := by
  have h := run_inv hrun
  refine ⟨?_, ?_, ?_, ?_, ?_⟩
  · exact h.nodup.imp_of_mem fun ha hb hne => h.spaced ha hb hne
  · intro a ha
    obtain ⟨p, hp, n, hn, rfl⟩ := (h.live_iff a).mp ha
    have hle := record_le (mem_used.mp hn).1
    exact ⟨p, hp, Nat.le_add_right _ _, by omega⟩
  · intro p hp
    obtain ⟨hs, hpos⟩ := h.sound p hp
    rw [hs.count] at hpos
    obtain ⟨n, hn⟩ := Finset.card_pos.mp hpos
    have hle := record_le (mem_used.mp hn).1
    have hline := g.line_pos
    exact ⟨_, (h.live_iff _).mpr ⟨p, hp, n, hn, rfl⟩, Nat.le_add_right _ _, by omega⟩
  · intro db hdb
    obtain ⟨m', hs, -⟩ := h.free hdb
    exact ⟨m', hs⟩
  · intro mem hmem
    obtain ⟨m', hs, -, hlive⟩ := h.alloc hmem
    exact ⟨m', hs, hlive⟩

/-- Two records to a page: the third needs another page, and the first page goes away with its
records. -/
def twoPages : List Event :=
  [.alloc (some 0), .alloc none, .alloc (some 128), .free 64, .free 0, .alloc none]

theorem dbrec_safe_twoPages :
    ∃ m, run (step ⟨128, 64, by decide, by decide⟩) ⟨[], []⟩ twoPages = some m ∧
      m.live = [192, 128] ∧ m.live.Pairwise (fun a b => a + 64 ≤ b ∨ b + 64 ≤ a) := by
  have hany : (run (step ⟨128, 64, by decide, by decide⟩) ⟨[], []⟩ twoPages).any
      (·.live = [192, 128]) := by
    decide +kernel
  obtain ⟨m, hrun, hlive⟩ := (Option.any_eq_true _ _).mp hany
  exact ⟨m, hrun, of_decide_eq_true hlive, (dbrec_safe _ hrun).1⟩

end RdmaperfIso.Mlx5.Doorbell
