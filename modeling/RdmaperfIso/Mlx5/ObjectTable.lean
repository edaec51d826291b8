import Mathlib.Data.Finset.Card
import Mathlib.Data.Nat.Bitwise
import Mathlib.Tactic
import RdmaperfIso.Lib.Reactive

/-! The tables that lead from the number in a completion to the object of the driver. They have
two levels: a page of 4096 entries is allocated with its first entry and freed with its last.
The numbers of queue pairs and shared receive queues come from the kernel, user indices are
chosen here. What the tables are for is a partial map. -/
namespace RdmaperfIso.Mlx5.ObjectTable
open Reactive

variable {ρ : Type}

/-- `table` is nothing when no memory is allocated. -/
structure Page (ρ : Type) where
  refcnt : ℕ
  table : Option (ℕ → Option ρ)

/-- The table of a page to store in. The first entry of a page allocates it, which may fail. -/
def Page.alloc (mem : Bool) (page : Page ρ) : Option (ℕ → Option ρ) :=
  if page.refcnt = 0 then if mem then some fun _ => none else none else page.table

abbrev Table (ρ : Type) := ℕ → Page ρ

/-- The entries of either level, `MLX5_UIDX_TABLE_MASK + 1` and `MLX5_UIDX_TABLE_SIZE`. -/
def tableSize : ℕ := 4096

/-- The numbers have 24 bits. -/
abbrev InTable (n : ℕ) : Prop := n / 4096 < 4096

def empty : Table ρ := fun _ => ⟨0, none⟩

namespace Table

/-- `mlx5_find_uidx`, and `mlx5_find_qp` and `mlx5_find_srq` in the same words. -/
def find (t : Table ρ) (n : ℕ) : Option (Option ρ) :=
  if InTable n then
    if (t (n / 4096)).refcnt ≠ 0 then (t (n / 4096)).table.map fun entries => entries (n % 4096)
    else some none
  else none

/-- `mlx5_store_qp` and `mlx5_store_srq`, with the result that they return. -/
def store (mem : Bool) (t : Table ρ) (n : ℕ) (r : ρ) : Option (Table ρ × Bool) :=
  let page := t (n / 4096)
  if InTable n then
    match Page.alloc mem page with
    | some entries =>
      some (Function.update t (n / 4096)
        ⟨page.refcnt + 1, some (Function.update entries (n % 4096) (some r))⟩, true)
    | none =>
      if page.refcnt = 0 then some (Function.update t (n / 4096) ⟨0, none⟩, false) else none
  else none

/-- `mlx5_clear_qp`, `mlx5_clear_srq` and `mlx5_clear_uidx`. The count must not get below
zero. -/
def clear (t : Table ρ) (n : ℕ) : Option (Table ρ) :=
  if InTable n then
    match t (n / 4096) with
    | ⟨1, some _⟩ => some (Function.update t (n / 4096) ⟨0, none⟩)
    | ⟨k + 2, some entries⟩ =>
      some (Function.update t (n / 4096) ⟨k + 1, some (Function.update entries (n % 4096) none)⟩)
    | _ => none
  else none

/-- The places of a page that are found to be in use. -/
def used (t : Table ρ) (tind : ℕ) : Finset ℕ :=
  (Finset.range tableSize).filter fun i => (t.find (4096 * tind + i)).join.isSome

/-- `get_free_uidx`. A page counts as full when one entry of it is left. -/
def getFreeUidx (t : Table ρ) : Option (Option ℕ) :=
  match (List.range tableSize).find? fun tind => (t tind).refcnt < 4095 with
  | none => some none
  | some tind =>
    if (t tind).refcnt = 0 then some (some (4096 * tind))
    else
      (t tind).table.map fun entries =>
        let i := ((List.range tableSize).find? fun i => (entries i).isNone).getD 4096
        some (4096 * tind ||| i)

/-- `mlx5_store_uidx`. -/
def storeUidx (mem : Bool) (t : Table ρ) (r : ρ) : Option (Table ρ × Option ℕ) := do
  match ← t.getFreeUidx with
  | none => some (t, none)
  | some n =>
    let (t, ok) ← t.store mem n r
    some (t, if ok then some n else none)

end Table

/-- `mem` says whether memory can be allocated. -/
inductive Event (ρ : Type) where
  | store (n : ℕ) (r : ρ) (mem : Bool)
  | alloc (r : ρ) (mem : Bool)
  | clear (n : ℕ)
  | find (n : ℕ)

inductive Answer (ρ : Type) where
  | stored (ok : Bool)
  | allocated (n : Option ℕ)
  | found (r : Option ρ)
  deriving DecidableEq, Repr

/-- A number is stored when it is not there, and cleared when it is. -/
def step (t : Table ρ) : Event ρ → Option (Table ρ × List (Answer ρ))
  | .store n r mem =>
    match t.find n with
    | some none => (t.store mem n r).map fun x => (x.1, [.stored x.2])
    | _ => none
  | .alloc r mem => (t.storeUidx mem r).map fun x => (x.1, [.allocated x.2])
  | .clear n =>
    match t.find n with
    | some (some _) => (t.clear n).map fun t => (t, [])
    | _ => none
  | .find n => (t.find n).map fun r => (t, [.found r])

/-- The objects by their numbers. -/
abbrev Names (ρ : Type) := ℕ → Option ρ

namespace Names

/-- The numbers in use on a page. -/
def used (live : Names ρ) (tind : ℕ) : Finset ℕ :=
  (Finset.range tableSize).filter fun i => (live (4096 * tind + i)).isSome

/-- The first free number, on the first page that has two of them. -/
def free (live : Names ρ) : Option ℕ :=
  ((List.range tableSize).find? fun tind => (live.used tind).card < 4095).bind fun tind =>
    ((List.range tableSize).find? fun i => (live (4096 * tind + i)).isNone).map (4096 * tind + ·)

/-- Only the first number of a page needs memory. -/
def store (mem : Bool) (live : Names ρ) (n : ℕ) (r : ρ) : Names ρ × Bool :=
  if mem = false ∧ live.used (n / 4096) = ∅ then (live, false)
  else (Function.update live n (some r), true)

def step (live : Names ρ) : Event ρ → Option (Names ρ × List (Answer ρ))
  | .store n r mem =>
    if InTable n ∧ live n = none then
      some ((live.store mem n r).1, [.stored (live.store mem n r).2])
    else none
  | .alloc r mem =>
    match live.free with
    | none => some (live, [.allocated none])
    | some n =>
      some ((live.store mem n r).1, [.allocated (if (live.store mem n r).2 then some n else none)])
  | .clear n =>
    if InTable n ∧ live n ≠ none then some (Function.update live n none, []) else none
  | .find n => if InTable n then some (live, [.found (live n)]) else none

end Names

section Refinement
variable {t : Table ρ} {live : Names ρ} {n : ℕ} {r : ρ} {mem : Bool}

/-- The entries of a page are the numbers in use on it. -/
structure Holds (page : Page ρ) (live : Names ρ) (tind : ℕ) : Prop where
  refcnt_eq : page.refcnt = (live.used tind).card
  table_eq : page.refcnt ≠ 0 →
    ∃ entries, page.table = some entries ∧ ∀ i < 4096, entries i = live (4096 * tind + i)

def Sim (t : Table ρ) (live : Names ρ) : Prop := ∀ tind < 4096, Holds (t tind) live tind

theorem mem_used {tind i : ℕ} :
    i ∈ live.used tind ↔ i < 4096 ∧ (live (4096 * tind + i)).isSome := by
  rw [Names.used, Finset.mem_filter, Finset.mem_range, tableSize]

theorem Holds.none_of_zero {page : Page ρ} {tind i : ℕ} (h : Holds page live tind)
    (hzero : page.refcnt = 0) (hi : i < 4096) : live (4096 * tind + i) = none := by
  have hempty : live.used tind = ∅ := Finset.card_eq_zero.mp (h.refcnt_eq ▸ hzero)
  have hnot : i ∉ live.used tind := by simp [hempty]
  rw [mem_used] at hnot
  simpa [hi] using hnot

theorem Sim.find (h : Sim t live) (hn : InTable n) : t.find n = some (live n) := by
  have hpage := h _ hn
  have hlt : n % 4096 < 4096 := Nat.mod_lt _ (by norm_num)
  have hdiv := Nat.div_add_mod n 4096
  rw [Table.find, if_pos hn]
  split_ifs with href
  · obtain ⟨entries, htable, hentries⟩ := hpage.table_eq href
    rw [htable, Option.map_some, hentries _ hlt, hdiv]
  · rw [← hpage.none_of_zero (not_not.mp href) hlt, hdiv]

/-- A change of one number touches one page. -/
theorem Sim.update (h : Sim t live) {page : Page ρ} (x : Option ρ)
    (hpage : Holds page (Function.update live n x) (n / 4096)) :
    Sim (Function.update t (n / 4096) page) (Function.update live n x) := by
  intro tind htind
  by_cases heq : tind = n / 4096
  · subst heq
    rwa [Function.update_self]
  · have hsame (i : ℕ) (hi : i < 4096) :
        Function.update live n x (4096 * tind + i) = live (4096 * tind + i) :=
      Function.update_of_ne (by omega) _ _
    have hused : Names.used (Function.update live n x) tind = live.used tind :=
      Finset.filter_congr fun i hi => by rw [hsame i (Finset.mem_range.mp hi)]
    obtain ⟨href, htable⟩ := h tind htind
    rw [Function.update_of_ne heq]
    refine ⟨href.trans (congrArg _ hused.symm), fun hne => ?_⟩
    obtain ⟨entries, hentries, heach⟩ := htable hne
    exact ⟨entries, hentries, fun i hi => (heach i hi).trans (hsame i hi).symm⟩

theorem used_insert (hn : live n = none) (r : ρ) :
    Names.used (Function.update live n (some r)) (n / 4096) =
      insert (n % 4096) (live.used (n / 4096)) ∧ n % 4096 ∉ live.used (n / 4096) := by
  have hdiv := Nat.div_add_mod n 4096
  have hlt : n % 4096 < 4096 := Nat.mod_lt _ (by norm_num)
  constructor
  · ext i
    rw [mem_used, Finset.mem_insert, mem_used]
    by_cases hi : i = n % 4096
    · subst hi
      simp [hdiv, hlt]
    · rw [Function.update_of_ne (by omega)]
      simp [hi]
  · rw [mem_used, hdiv, hn]
    simp

theorem used_erase (x : Names ρ) :
    Names.used (Function.update x n none) (n / 4096) = (x.used (n / 4096)).erase (n % 4096) := by
  have hdiv := Nat.div_add_mod n 4096
  ext i
  rw [mem_used, Finset.mem_erase, mem_used]
  by_cases hi : i = n % 4096
  · subst hi
    simp [hdiv]
  · rw [Function.update_of_ne (by omega)]
    simp [hi]

theorem update_entries {entries : ℕ → Option ρ} {x : Option ρ}
    (h : ∀ i < 4096, entries i = live (4096 * (n / 4096) + i)) :
    ∀ i < 4096, Function.update entries (n % 4096) x i =
      Function.update live n x (4096 * (n / 4096) + i) := by
  intro i hi
  have hdiv := Nat.div_add_mod n 4096
  by_cases heq : i = n % 4096
  · subst heq
    rw [Function.update_self, hdiv, Function.update_self]
  · rw [Function.update_of_ne heq, Function.update_of_ne (by omega), h i hi]

theorem Sim.store (h : Sim t live) (hn : InTable n) (hnone : live n = none) (r : ρ) (mem : Bool) :
    ∃ t', t.store mem n r = some (t', (live.store mem n r).2) ∧ Sim t' (live.store mem n r).1 := by
  have hpage := h _ hn
  obtain ⟨hins, hnot⟩ := used_insert hnone r
  have hcard : (Names.used (Function.update live n (some r)) (n / 4096)).card =
      (t (n / 4096)).refcnt + 1 := by
    rw [hins, Finset.card_insert_of_notMem hnot, hpage.refcnt_eq]
  have hempty : live.used (n / 4096) = ∅ ↔ (t (n / 4096)).refcnt = 0 := by
    rw [← Finset.card_eq_zero, hpage.refcnt_eq]
  simp only [Table.store, if_pos hn, Names.store, hempty, Page.alloc]
  by_cases hzero : (t (n / 4096)).refcnt = 0
  · cases mem with
    | false =>
      simp only [hzero, if_true, Bool.false_eq_true, if_false, and_self]
      refine ⟨_, rfl, ?_⟩
      have hsame : Function.update live n none = live := by rw [← hnone, Function.update_eq_self]
      have hholds : Holds ⟨0, none⟩ (Function.update live n none) (n / 4096) :=
        ⟨by rw [hsame, ← hpage.refcnt_eq, hzero], fun hne => absurd rfl hne⟩
      have hupdate := h.update none hholds
      rwa [hsame] at hupdate
    | true =>
      simp only [hzero, if_true, Bool.true_eq_false, false_and, if_false]
      refine ⟨_, rfl, h.update _ ⟨by rw [hcard, hzero], fun _ => ⟨_, rfl, update_entries ?_⟩⟩⟩
      exact fun i hi => (hpage.none_of_zero hzero hi).symm
  · obtain ⟨entries, htable, hentries⟩ := hpage.table_eq hzero
    simp only [hzero, if_false, and_false, htable]
    exact ⟨_, rfl, h.update _ ⟨hcard.symm, fun _ => ⟨_, rfl, update_entries hentries⟩⟩⟩

theorem Sim.clear (h : Sim t live) (hn : InTable n) (hsome : live n ≠ none) :
    ∃ t', t.clear n = some t' ∧ Sim t' (Function.update live n none) := by
  have hpage := h _ hn
  have hmem : n % 4096 ∈ live.used (n / 4096) := by
    rw [mem_used, Nat.div_add_mod]
    exact ⟨Nat.mod_lt _ (by norm_num), Option.isSome_iff_ne_none.mpr hsome⟩
  have hcard : (Names.used (Function.update live n none) (n / 4096)).card + 1 =
      (t (n / 4096)).refcnt := by
    rw [used_erase, Finset.card_erase_add_one hmem, hpage.refcnt_eq]
  obtain ⟨entries, htable, hentries⟩ := hpage.table_eq (by omega)
  rw [Table.clear, if_pos hn]
  generalize t (n / 4096) = page at *
  obtain ⟨refcnt, table⟩ := page
  obtain rfl : table = some entries := htable
  match refcnt, hcard with
  | 1, hcard =>
    exact ⟨_, rfl, h.update none ⟨(Nat.succ.inj hcard).symm, fun hne => absurd rfl hne⟩⟩
  | k + 2, hcard =>
    exact ⟨_, rfl, h.update none
      ⟨(Nat.succ.inj hcard).symm, fun _ => ⟨_, rfl, update_entries hentries⟩⟩⟩

theorem find?_range {p : ℕ → Bool} {m i : ℕ} (h : (List.range m).find? p = some i) :
    i < m ∧ p i = true :=
  ⟨List.mem_range.mp (List.mem_of_find?_eq_some h), List.find?_some h⟩

theorem find?_range_zero {p : ℕ → Bool} {m : ℕ} (hm : 0 < m) (h : p 0 = true) :
    (List.range m).find? p = some 0 := by
  obtain ⟨k, rfl⟩ := Nat.exists_eq_succ_of_ne_zero hm.ne'
  rw [List.range_succ_eq_map, List.find?_cons_of_pos h]

/-- A page with fewer numbers than entries has a free one. -/
theorem exists_free {tind : ℕ} (h : (live.used tind).card < 4095) :
    ∃ i, (List.range tableSize).find? (fun i => (live (4096 * tind + i)).isNone) = some i := by
  rw [← Option.isSome_iff_exists, List.find?_isSome]
  by_contra hall
  have hfull : live.used tind = Finset.range tableSize := by
    refine Finset.filter_true_of_mem fun i hi => ?_
    by_contra hnone
    exact hall ⟨i, List.mem_range.mpr (Finset.mem_range.mp hi), by simpa using hnone⟩
  rw [hfull, Finset.card_range, tableSize] at h
  omega

theorem Names.free_spec {live : Names ρ} (h : live.free = some n) : InTable n ∧ live n = none := by
  obtain ⟨tind, htind, h⟩ := Option.bind_eq_some_iff.mp h
  obtain ⟨i, hi, rfl⟩ := Option.map_eq_some_iff.mp h
  obtain ⟨hlt, -⟩ := find?_range htind
  obtain ⟨hilt, hnone⟩ := find?_range hi
  rw [tableSize] at hlt hilt
  exact ⟨by unfold InTable; omega, Option.isNone_iff_eq_none.mp hnone⟩

theorem Names.free_none {live : Names ρ} (h : live.free = none) :
    ∀ tind < 4096, 4095 ≤ (live.used tind).card := by
  rw [Names.free, Option.bind_eq_none_iff] at h
  have hnone : (List.range tableSize).find? (fun tind => (live.used tind).card < 4095) = none := by
    by_contra hsome
    obtain ⟨tind, htind⟩ := Option.ne_none_iff_exists'.mp hsome
    obtain ⟨i, hi⟩ := exists_free (of_decide_eq_true (find?_range htind).2)
    simpa [hi] using h tind htind
  intro tind htind
  simpa using List.find?_eq_none.mp hnone tind (List.mem_range.mpr htind)

theorem Sim.getFreeUidx (h : Sim t live) : t.getFreeUidx = some live.free := by
  have hfind : (List.range tableSize).find? (fun tind => (t tind).refcnt < 4095) =
      (List.range tableSize).find? fun tind => (live.used tind).card < 4095 :=
    List.find?_congr fun tind htind => by rw [(h tind (List.mem_range.mp htind)).refcnt_eq]
  unfold Table.getFreeUidx Names.free
  rw [hfind]
  cases htind : (List.range tableSize).find? fun tind => (live.used tind).card < 4095 with
  | none => rfl
  | some tind =>
    obtain ⟨hlt, hcard⟩ := find?_range htind
    have hpage := h tind hlt
    obtain ⟨i, hi⟩ := exists_free (of_decide_eq_true hcard)
    simp only [Option.bind_some, hi, Option.map_some]
    split_ifs with hzero
    · have hfirst : (live (4096 * tind + 0)).isNone = true := by
        rw [hpage.none_of_zero hzero (by norm_num), Option.isNone_none]
      have hhead := find?_range_zero (p := fun i => (live (4096 * tind + i)).isNone)
        (m := tableSize) (Nat.succ_pos 4095) hfirst
      obtain rfl : i = 0 := Option.some.inj (hi.symm.trans hhead)
      rw [add_zero]
    · obtain ⟨entries, htable, hentries⟩ := hpage.table_eq hzero
      have hsame : (List.range tableSize).find? (fun i => (entries i).isNone) = some i := by
        rw [← hi]
        exact List.find?_congr fun j hj => by rw [hentries j (List.mem_range.mp hj)]
      have hilt : i < 2 ^ 12 := (find?_range hi).1
      have hor : 4096 * tind + i = 4096 * tind ||| i := Nat.two_pow_add_eq_or_of_lt hilt tind
      simp only [htable, Option.map_some, hsame, Option.getD_some, hor]

theorem Table.find_of_not_inTable (t : Table ρ) (hn : ¬InTable n) : t.find n = none := by
  unfold Table.find
  rw [if_neg hn]

theorem Sim.stepStore (h : Sim t live) (n : ℕ) (r : ρ) (mem : Bool) :
    Agree Sim (step t (.store n r mem)) (live.step (.store n r mem)) := by
  unfold ObjectTable.step Names.step
  by_cases hn : InTable n
  · simp only [h.find hn]
    cases hnone : live n with
    | none =>
      obtain ⟨t', ht', hsim⟩ := h.store hn hnone r mem
      simp only [ht', Option.map_some, if_pos (And.intro hn trivial)]
      exact .some ⟨hsim, rfl⟩
    | some r' =>
      rw [if_neg (by simp)]
      exact .none
  · simp only [t.find_of_not_inTable hn, if_neg (not_and_of_not_left _ hn)]
    exact .none

theorem Sim.stepAlloc (h : Sim t live) (r : ρ) (mem : Bool) :
    Agree Sim (step t (.alloc r mem)) (live.step (.alloc r mem)) := by
  unfold ObjectTable.step Names.step
  simp only [Table.storeUidx, h.getFreeUidx, Option.bind_eq_bind, Option.bind_some]
  cases hfree : live.free with
  | none => exact .some ⟨h, rfl⟩
  | some n =>
    obtain ⟨hn, hnone⟩ := Names.free_spec hfree
    obtain ⟨t', ht', hsim⟩ := h.store hn hnone r mem
    simp only [ht', Option.bind_some, Option.map_some]
    exact .some ⟨hsim, rfl⟩

theorem Sim.stepClear (h : Sim t live) (n : ℕ) :
    Agree Sim (step t (.clear n)) (live.step (.clear n)) := by
  unfold ObjectTable.step Names.step
  by_cases hn : InTable n
  · simp only [h.find hn]
    cases hsome : live n with
    | none =>
      rw [if_neg (by simp)]
      exact .none
    | some r =>
      obtain ⟨t', ht', hsim⟩ := h.clear hn (by simp [hsome])
      simp only [ht', Option.map_some]
      rw [if_pos ⟨hn, by simp⟩]
      exact .some ⟨hsim, rfl⟩
  · simp only [t.find_of_not_inTable hn, if_neg (not_and_of_not_left _ hn)]
    exact .none

theorem Sim.step (h : Sim t live) (e : Event ρ) : Agree Sim (step t e) (live.step e) := by
  cases e with
  | store n r mem => exact h.stepStore n r mem
  | alloc r mem => exact h.stepAlloc r mem
  | clear n => exact h.stepClear n
  | find n =>
    unfold ObjectTable.step Names.step
    by_cases hn : InTable n
    · simp only [h.find hn, Option.map_some, if_pos hn]
      exact .some ⟨h, rfl⟩
    · simp only [t.find_of_not_inTable hn, if_neg hn]
      exact .none

theorem sim_empty : Sim (empty : Table ρ) fun _ => none := by
  refine fun tind _ => ⟨?_, fun hne => absurd rfl hne⟩
  simp [empty, Names.used]

theorem Sim.used (h : Sim t live) {tind : ℕ} (htind : tind < 4096) :
    t.used tind = live.used tind := by
  refine Finset.filter_congr fun i hi => ?_
  have hlt : i < 4096 := Finset.mem_range.mp hi
  rw [h.find (by unfold InTable; omega), Option.join_some]

/-- What an allocation answers: a number that was not in use, or none where the pages are full or
the memory for a page is missing. -/
theorem Sim.allocated (h : Sim t live) (r : ρ) (mem : Bool) :
    ∃ t' uidx, ObjectTable.step t (.alloc r mem) = some (t', [.allocated uidx]) ∧
      (∀ n ∈ uidx, n < 2 ^ 24 ∧ t.find n = some none) ∧
      (uidx = none → (∀ tind < 4096, 4095 ≤ (t.used tind).card) ∨
        mem = false ∧ ∃ tind < 4096, t.used tind = ∅) := by
  unfold ObjectTable.step
  simp only [Table.storeUidx, h.getFreeUidx, Option.bind_eq_bind, Option.bind_some]
  cases hfree : live.free with
  | none =>
    refine ⟨t, none, rfl, by simp, fun _ => .inl fun tind htind => ?_⟩
    rw [h.used htind]
    exact Names.free_none hfree tind htind
  | some n =>
    obtain ⟨hn, hnone⟩ := Names.free_spec hfree
    obtain ⟨t', ht', -⟩ := h.store hn hnone r mem
    simp only [ht', Option.bind_some, Option.map_some]
    refine ⟨t', _, rfl, ?_, ?_⟩
    · intro m hm
      split_ifs at hm
      · obtain rfl := Option.some.inj hm
        exact ⟨by unfold InTable at hn; omega, by rw [h.find hn, hnone]⟩
      · cases hm
    · rw [Names.store]
      by_cases hmem : mem = false ∧ live.used (n / 4096) = ∅
      · exact fun _ => .inr ⟨hmem.1, _, hn, by rw [h.used hn, hmem.2]⟩
      · simp [hmem]

end Refinement

end RdmaperfIso.Mlx5.ObjectTable
