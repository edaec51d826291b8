import Mathlib.Data.Fintype.EquivFin
import Mathlib.Data.Nat.ModEq
import Mathlib.Order.Interval.Set.Basic
import Mathlib.Tactic

/-! A sequence of writes to finitely many slots, and when the slots keep the latest ones.
The slot of a write may come from a counter that wraps: then the capacity should divide
the number of its values. -/
namespace RdmaperfIso.Slots

theorem injOn_of_lt {κ : Type*} {slot : ℕ → κ} {s : Set ℕ}
    (h : ∀ m ∈ s, ∀ l ∈ s, m < l → slot l ≠ slot m) : Set.InjOn slot s := by
  intro m hm l hl hslot
  rcases lt_trichotomy m l with hml | rfl | hlm
  · exact absurd hslot.symm (h m hm l hl hml)
  · rfl
  · exact absurd hslot (h l hl m hm hlm)

section Store
variable {κ α : Type*} [DecidableEq κ]

/-- The slots after the first `n` writes; write number `m` puts `value m` into `slot m`. -/
def store (slot : ℕ → κ) (value : ℕ → α) (mem : κ → α) : ℕ → κ → α
  | 0 => mem
  | n + 1 => Function.update (store slot value mem n) (slot n) (value n)

/-- The slots hold the last writes, each of them in one slot. -/
def HoldsLast [Fintype κ] (mem : κ → α) (value : ℕ → α) (n : ℕ) : Prop :=
  ∃ place : Fin (Fintype.card κ) ≃ κ, ∀ k, mem (place k) = value (n - Fintype.card κ + k)

variable {slot : ℕ → κ} {value : ℕ → α} {mem : κ → α} {m n : ℕ}

theorem store_of_last (hm : m < n) (hlast : ∀ l, m < l → l < n → slot l ≠ slot m) :
    store slot value mem n (slot m) = value m := by
  induction n with
  | zero => exact absurd hm m.not_lt_zero
  | succ n ih =>
    rcases Nat.lt_succ_iff_lt_or_eq.mp hm with hlt | rfl
    · rw [store, Function.update_of_ne (hlast n hlt n.lt_succ_self).symm]
      exact ih hlt fun l hl hln => hlast l hl (hln.trans n.lt_succ_self)
    · exact Function.update_self ..

/-- A value that is in a slot was there at first or is the one written to it last. -/
theorem store_eq_cases (slot : ℕ → κ) (value : ℕ → α) (mem : κ → α) (n : ℕ) (j : κ) :
    store slot value mem n j = mem j ∨
      ∃ m < n, store slot value mem n j = value m ∧ slot m = j ∧
        ∀ l, m < l → l < n → slot l ≠ j := by
  induction n with
  | zero => exact .inl rfl
  | succ n ih =>
    by_cases hj : slot n = j
    · subst hj
      exact .inr ⟨n, n.lt_succ_self, Function.update_self .., rfl, fun l hl hln => by omega⟩
    · have hkeep : store slot value mem (n + 1) j = store slot value mem n j :=
        Function.update_of_ne (Ne.symm hj) ..
      rw [hkeep]
      refine ih.imp_right ?_
      rintro ⟨m, hm, hval, hslot, hlast⟩
      refine ⟨m, hm.trans n.lt_succ_self, hval, hslot, fun l hl hln => ?_⟩
      rcases Nat.lt_succ_iff_lt_or_eq.mp hln with hlt | rfl
      · exact hlast l hl hlt
      · exact hj

/-- A later write to the same slot leaves no trace of a value that was written only once. -/
theorem store_ne_of_clash {a b : α} {l : ℕ} (hab : b ≠ a) (hmem : ∀ j, mem j ≠ a)
    (hml : m < l) (hln : l < n) (hslot : slot l = slot m) (j : κ) :
    store slot (fun i => if i = m then a else b) mem n j ≠ a := by
  rcases store_eq_cases slot (fun i => if i = m then a else b) mem n j with
    hinit | ⟨i, -, hval, rfl, hlast⟩
  · rw [hinit]
    exact hmem j
  · have him : i ≠ m := by
      rintro rfl
      exact hlast l hml hln hslot
    rw [hval, if_neg him]
    exact hab

variable [Fintype κ]

theorem holdsLast_store (hn : Fintype.card κ ≤ n)
    (hinj : Set.InjOn slot (Set.Ico (n - Fintype.card κ) n)) :
    HoldsLast (store slot value mem n) value n := by
  have hwindow (k : Fin (Fintype.card κ)) :
      n - Fintype.card κ + k ∈ Set.Ico (n - Fintype.card κ) n := by
    have hk := k.isLt
    exact ⟨by omega, by omega⟩
  have hplace : Function.Injective fun k : Fin (Fintype.card κ) =>
      slot (n - Fintype.card κ + k) := by
    intro k k' h
    exact Fin.ext (Nat.add_left_cancel (hinj (hwindow k) (hwindow k') h))
  have hbij := (Fintype.bijective_iff_injective_and_card _).mpr ⟨hplace, Fintype.card_fin _⟩
  refine ⟨Equiv.ofBijective _ hbij, fun k => ?_⟩
  refine store_of_last (hwindow k).2 fun l hl hln hslot => ?_
  have hl' : l ∈ Set.Ico (n - Fintype.card κ) n := ⟨(hwindow k).1.trans hl.le, hln⟩
  exact hl.ne' (hinj hl' (hwindow k) hslot)

/-- Whatever is written, the slots keep the last writes exactly when those go to different
slots. -/
theorem holdsLast_store_iff {a b : α} (hab : b ≠ a) (hmem : ∀ j, mem j ≠ a)
    (hn : Fintype.card κ ≤ n) :
    (∀ value : ℕ → α, HoldsLast (store slot value mem n) value n) ↔
      Set.InjOn slot (Set.Ico (n - Fintype.card κ) n) := by
  refine ⟨fun h => ?_, fun hinj value => holdsLast_store hn hinj⟩
  refine injOn_of_lt fun m hm l hl hml hslot => ?_
  obtain ⟨place, hplace⟩ := h fun i => if i = m then a else b
  obtain ⟨hge, hlt⟩ := hm
  have hk := hplace ⟨m - (n - Fintype.card κ), by omega⟩
  have hm' : n - Fintype.card κ + (m - (n - Fintype.card κ)) = m := Nat.add_sub_cancel' hge
  simp only [hm', if_true] at hk
  exact store_ne_of_clash hab hmem hml hl.2 hslot _ hk

end Store

section Counter
variable {size lap l m n : ℕ}

/-- Within one lap of the counter, two writes to the same slot are at least a ring apart. -/
theorem slot_ne_of_same_lap (hdiv : m / lap = l / lap) (hml : m < l) (hlt : l < m + size) :
    l % lap % size ≠ m % lap % size := by
  intro hslot
  have hm := Nat.div_add_mod m lap
  have hl := Nat.div_add_mod l lap
  rw [hdiv] at hm
  have hdvd : size ∣ l % lap - m % lap := (Nat.modEq_iff_dvd' (by omega)).mp hslot.symm
  have hle := Nat.le_of_dvd (by omega) hdvd
  omega

/-- The last writes do not straddle the end of a lap. -/
theorem exists_lap (hlap : size ≤ lap) (hn : size ≤ n) (hsize : 0 < size)
    (h : n < lap ∨ n % lap = 0 ∨ size ≤ n % lap) :
    ∃ k, lap * k ≤ n - size ∧ n ≤ lap * (k + 1) := by
  rcases h with hlt | hzero | hle
  · exact ⟨0, by omega, by omega⟩
  · obtain ⟨k, rfl⟩ := Nat.dvd_of_mod_eq_zero hzero
    rcases Nat.eq_zero_or_pos k with rfl | hk
    · omega
    · obtain ⟨k, rfl⟩ := Nat.exists_eq_add_of_le' hk
      refine ⟨k, ?_, le_rfl⟩
      rw [Nat.mul_succ]
      omega
  · have hmod := Nat.div_add_mod n lap
    have hlt := Nat.mod_lt n (hsize.trans_le hlap)
    refine ⟨n / lap, by omega, ?_⟩
    rw [Nat.mul_succ]
    omega

/-- Just after the end of a lap, the remainder of the lap by the ring makes two of the last
writes share a slot. -/
theorem exists_clash (hdvd : ¬ size ∣ lap) (hsize : 0 < size) (hn : lap ≤ n)
    (hpos : n % lap ≠ 0) (hlt : n % lap < size) :
    ∃ m l, n - size ≤ m ∧ m < l ∧ l < n ∧ l % lap % size = m % lap % size := by
  have hrem : lap % size ≠ 0 := fun h => hdvd (Nat.dvd_of_mod_eq_zero h)
  have hrem_lt := Nat.mod_lt lap hsize
  have hlap_pos : 0 < lap := by
    by_contra h
    simp [Nat.eq_zero_of_not_pos h] at hdvd
  have hmod_lt := Nat.mod_lt n hlap_pos
  have hn_eq := Nat.div_add_mod n lap
  have hlap_eq := Nat.div_add_mod lap size
  obtain ⟨q, hq⟩ := Nat.exists_eq_add_of_le' (Nat.div_pos hn hlap_pos)
  rw [hq, Nat.mul_succ] at hn_eq
  -- Slot `j` is written on the incomplete round at the end of the old lap, and again on the
  -- first round of the new one, both times within the last writes.
  obtain ⟨j, hj⟩ : ∃ j, j = n % lap + lap % size - size := ⟨_, rfl⟩
  have hlate : (lap * (q + 1) + j) % lap = j := by
    rw [Nat.mul_add_mod]
    exact Nat.mod_eq_of_lt (by omega)
  have hearly : (lap * q + (size * (lap / size) + j)) % lap = size * (lap / size) + j := by
    rw [Nat.mul_add_mod]
    exact Nat.mod_eq_of_lt (by omega)
  refine ⟨lap * q + (size * (lap / size) + j), lap * (q + 1) + j, ?_, ?_, ?_, ?_⟩
  · omega
  · rw [Nat.mul_succ]
    omega
  · rw [Nat.mul_succ]
    omega
  · rw [hlate, hearly, Nat.mul_add_mod]

/-- The last writes go to different slots exactly when the ring divides the lap or they do
not straddle the end of a lap. -/
theorem counter_injOn_iff (hsize : 0 < size) (hlap : size ≤ lap) (hn : size ≤ n) :
    Set.InjOn (fun m => m % lap % size) (Set.Ico (n - size) n) ↔
      size ∣ lap ∨ n < lap ∨ n % lap = 0 ∨ size ≤ n % lap := by
  constructor
  · intro hinj
    by_contra hcond
    simp only [not_or, not_lt, not_le] at hcond
    obtain ⟨hdvd, hge, hpos, hlt⟩ := hcond
    obtain ⟨m, l, hm, hml, hln, hslot⟩ := exists_clash hdvd hsize hge hpos hlt
    exact hml.ne' (hinj ⟨hm.trans hml.le, hln⟩ ⟨hm, hml.trans hln⟩ hslot)
  · rintro (hdvd | hcond)
    · refine injOn_of_lt fun m hm l hl hml hslot => ?_
      obtain ⟨⟨hm, -⟩, -, hln⟩ := hm, hl
      rw [Nat.mod_mod_of_dvd l hdvd, Nat.mod_mod_of_dvd m hdvd] at hslot
      have hle := Nat.le_of_dvd (by omega) ((Nat.modEq_iff_dvd' hml.le).mp hslot.symm)
      omega
    · obtain ⟨k, hk, hk'⟩ := exists_lap hlap hn hsize hcond
      have hdiv (i : ℕ) (hi : i ∈ Set.Ico (n - size) n) : i / lap = k := by
        obtain ⟨hge, hlt⟩ := hi
        exact Nat.div_eq_of_lt_le (by rw [mul_comm]; omega) (by rw [mul_comm]; omega)
      refine injOn_of_lt fun m hm l hl hml => ?_
      have hspan := hm.1
      have hln := hl.2
      exact slot_ne_of_same_lap ((hdiv m hm).trans (hdiv l hl).symm) hml (by omega)

end Counter
end RdmaperfIso.Slots
