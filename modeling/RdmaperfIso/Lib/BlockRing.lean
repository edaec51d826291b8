import Mathlib.Data.Finset.Image
import RdmaperfIso.Lib.OwnerRing

/-! Rings of blocks. Entries of different lengths follow each other around the ring, and what is
kept about an entry is at its first block. As long as all entries together are not longer than
the ring, none of them overlaps another, and a new one is written outside of them. -/
namespace RdmaperfIso.BlockRing
open OwnerRing

variable {α γ : Type*} {size h p : ℕ} {len : α → ℕ} {P : γ → ℕ → ℕ → α → Prop}
  {cells cells' : ℕ → γ} {c : γ} {x : α} {xs ys : List α}

/-- The blocks of all entries. -/
def total (len : α → ℕ) (xs : List α) : ℕ := (xs.map len).sum

@[simp] theorem total_nil : total len [] = 0 := rfl

@[simp] theorem total_cons : total len (x :: xs) = len x + total len xs := by
  simp [total]

@[simp] theorem total_append : total len (xs ++ ys) = total len xs + total len ys := by
  simp [total]

theorem total_le {room : ℕ} (hlen : ∀ x ∈ xs, len x ≤ room) :
    total len xs ≤ xs.length * room := by
  simpa [total] using List.sum_le_card_nsmul (xs.map len) room (by simpa using hlen)

/-- Entry by entry, the cell of the first block describes the entry with its number and its
position. -/
def Placed (size : ℕ) (len : α → ℕ) (P : γ → ℕ → ℕ → α → Prop) (cells : ℕ → γ) :
    ℕ → ℕ → List α → Prop
  | _, _, [] => True
  | h, p, x :: xs => P (cells (p % size)) h p x ∧ Placed size len P cells (h + 1) (p + len x) xs

theorem placed_append : Placed size len P cells h p (xs ++ ys) ↔
    Placed size len P cells h p xs ∧
      Placed size len P cells (h + xs.length) (p + total len xs) ys := by
  induction xs generalizing h p with
  | nil => simp [Placed]
  | cons x xs ih =>
    have hnum : h + (xs.length + 1) = h + 1 + xs.length := by omega
    rw [List.cons_append, Placed, ih, Placed, and_assoc, List.length_cons, total_cons, hnum,
      add_assoc p]

/-- Only the first blocks of the entries matter. -/
theorem Placed.congr (hp : Placed size len P cells h p xs) (hlen : ∀ x ∈ xs, 0 < len x)
    (hcells : ∀ q, p ≤ q → q < p + total len xs → cells' (q % size) = cells (q % size)) :
    Placed size len P cells' h p xs := by
  induction xs generalizing h p with
  | nil => trivial
  | cons x xs ih =>
    have hx := hlen x List.mem_cons_self
    rw [total_cons] at hcells
    refine ⟨?_, ih hp.2 (fun y hy => hlen y (List.mem_cons_of_mem x hy))
      fun q hq hlt => hcells q (by omega) (by omega)⟩
    rw [hcells p le_rfl (by omega)]
    exact hp.1

/-- A cell behind the last entry can be written. -/
theorem Placed.write (hp : Placed size len P cells h p xs) (hlen : ∀ x ∈ xs, 0 < len x) {i : ℕ}
    (hlt : total len xs + i < size) (c : γ) :
    Placed size len P (Function.update cells ((p + total len xs + i) % size) c) h p xs :=
  hp.congr hlen fun _ hq hlt' =>
    Function.update_of_ne (slot_ne (Nat.lt_add_right i hlt') (by omega)) c cells

/-- A new entry takes the blocks behind the last one. -/
theorem Placed.push (hp : Placed size len P cells h p xs) (hlen : ∀ x ∈ xs, 0 < len x)
    (hlt : total len xs < size) (hc : P c (h + xs.length) (p + total len xs) x) :
    Placed size len P (Function.update cells ((p + total len xs) % size) c) h p (xs ++ [x]) :=
  placed_append.mpr ⟨hp.write (i := 0) hlen hlt c, by rwa [Function.update_self], trivial⟩

/-- The positions of the entries are within the blocks of all. -/
theorem Placed.exists_pos (hp : Placed size len P cells h p xs) (hx : x ∈ xs) :
    ∃ c n q, P c n q x ∧ p ≤ q ∧ q + len x ≤ p + total len xs := by
  induction xs generalizing h p with
  | nil => simp at hx
  | cons y xs ih =>
    rw [total_cons]
    rcases List.mem_cons.mp hx with rfl | hx
    · exact ⟨_, _, p, hp.1, le_rfl, by omega⟩
    · obtain ⟨c, n, q, hq, hlow, hhigh⟩ := ih hp.2 hx
      exact ⟨c, n, q, hq, by omega, by omega⟩

/-- The blocks of an entry at a position. -/
def blocks (size p n : ℕ) : Finset ℕ := (Finset.range n).image fun i => (p + i) % size

theorem disjoint_blocks {q n m : ℕ} (hq : p + n ≤ q) (hm : q + m ≤ p + size) :
    Disjoint (blocks size p n) (blocks size q m) := by
  simp only [blocks, Finset.disjoint_left, Finset.mem_image, Finset.mem_range]
  rintro _ ⟨i, hi, rfl⟩ ⟨j, hj, heq⟩
  exact slot_ne (show p + i < q + j by omega) (by omega) heq.symm

/-- No two entries have a block in common, wherever the entries themselves say that they are. -/
theorem Placed.pairwise_disjoint {pos : α → ℕ} (hp : Placed size len P cells h p xs)
    (hpos : ∀ c n q x, P c n q x → pos x % size = q % size) (htotal : total len xs ≤ size) :
    xs.Pairwise fun x y =>
      Disjoint (blocks size (pos x) (len x)) (blocks size (pos y) (len y)) := by
  have hblocks {c n q x} (hq : P c n q x) :
      blocks size (pos x) (len x) = blocks size q (len x) := by
    refine Finset.image_congr fun i _ => ?_
    show (pos x + i) % size = (q + i) % size
    rw [Nat.add_mod, hpos c n q x hq, ← Nat.add_mod]
  induction xs generalizing h p with
  | nil => exact .nil
  | cons x xs ih =>
    rw [total_cons] at htotal
    refine .cons (fun y hy => ?_) (ih hp.2 (by omega))
    obtain ⟨c, n, q, hq, hlow, hhigh⟩ := hp.2.exists_pos hy
    rw [hblocks hp.1, hblocks hq]
    exact disjoint_blocks hlow (by omega)

end RdmaperfIso.BlockRing
