import RdmaperfIso.ResourceTable

/-! The queue-pair cache of a task: a table of used handles and a counter of them, which four
calls update separately. -/
namespace RdmaperfIso.QpCache
open Run

/-- The index expression `entry[value]` is defined inside the array only. -/
def slot (value : ℕ) : Option (Fin cacheSize) :=
  if h : value < cacheSize then some ⟨value, h⟩ else none

def cacheFind (cache : QpCache) (value : ℕ) : Option ℤ := (slot value).map cache.entry

/-- The statement `cache->usage;` reads the counter and drops the value. -/
def cacheInsert (cache : QpCache) (value : ℕ) : Option QpCache := do
  let found ← cache.cacheFind value
  if found ≠ 0 then some cache
  else
    let i ← slot value
    some { cache with entry := Function.update cache.entry i 1 }

def cacheFindOrInsert (cache : QpCache) (value : ℕ) : Option QpCache := do
  let found ← cache.cacheFind value
  if found ≠ 0 then some cache else cache.cacheInsert value

/-- The counter is an `int`; a decrement below its range is undefined. -/
def cacheDelete (cache : QpCache) (value : ℕ) : Option QpCache := do
  let i ← slot value
  if cache.usage = -2 ^ 31 then none
  else some { cache with entry := Function.update cache.entry i 0, usage := cache.usage - 1 }

def cacheFlush (cache : QpCache) : QpCache := { cache with entry := fun _ => 0, usage := 0 }

inductive Call where
  | initQpCache
  | cacheFindOrInsert (value : ℕ)
  | cacheDelete (value : ℕ)
  | cacheFlush
  deriving DecidableEq

def step (cache : QpCache) : Call → Option QpCache
  | .initQpCache => some RdmaperfIso.initQpCache
  | .cacheFindOrInsert value => cache.cacheFindOrInsert value
  | .cacheDelete value => cache.cacheDelete value
  | .cacheFlush => some cache.cacheFlush

/-- The slots in use. -/
def occupied (cache : QpCache) : Finset (Fin cacheSize) := {i | cache.entry i ≠ 0}

def Counted (cache : QpCache) : Prop := cache.usage = cache.occupied.card

/-- What a call has to keep: the counter is the number of slots in use, an insertion of a
present handle and a deletion of an absent one change nothing, and a deletion undoes the
insertion of a fresh handle. -/
structure Keeps (cache : QpCache) (call : Call) (cache' : QpCache) : Prop where
  counted : cache'.Counted
  bounds : 0 ≤ cache'.usage ∧ cache'.usage ≤ cacheSize
  present : ∀ value i, call = .cacheFindOrInsert value → slot value = some i →
    cache.entry i ≠ 0 → cache' = cache
  absent : ∀ value i, call = .cacheDelete value → slot value = some i →
    cache.entry i = 0 → cache' = cache
  restored : ∀ value i, call = .cacheFindOrInsert value → slot value = some i →
    cache.entry i = 0 → cache'.cacheDelete value = some cache

/-- The call names a handle that the cache holds. -/
def Holds (cache : QpCache) : Call → Prop
  | .initQpCache => True
  | .cacheFindOrInsert value => ∃ i, slot value = some i ∧ cache.entry i ≠ 0
  | .cacheDelete value => ∃ i, slot value = some i ∧ cache.entry i ≠ 0
  | .cacheFlush => True

section Calls
variable {cache cache' : QpCache} {value : ℕ} {i : Fin cacheSize}

theorem cacheFindOrInsert_eq (hi : slot value = some i) :
    cache.cacheFindOrInsert value = some (if cache.entry i ≠ 0 then cache
      else { cache with entry := Function.update cache.entry i 1 }) := by
  by_cases he : cache.entry i = 0 <;>
    simp [QpCache.cacheFindOrInsert, cacheInsert, cacheFind, hi, he]

theorem cacheDelete_eq (hi : slot value = some i) (hu : 0 ≤ cache.usage) :
    cache.cacheDelete value =
      some { cache with entry := Function.update cache.entry i 0, usage := cache.usage - 1 } := by
  simp only [QpCache.cacheDelete, hi, Option.bind_eq_bind, Option.bind_some]
  exact if_neg (by omega)

theorem occupied_insert (cache : QpCache) (i : Fin cacheSize) :
    occupied { cache with entry := Function.update cache.entry i 1 } = insert i cache.occupied := by
  ext j
  by_cases hj : j = i <;> simp [occupied, Function.update_apply, hj]

theorem occupied_delete (cache : QpCache) (i : Fin cacheSize) (usage : ℤ) :
    occupied { cache with entry := Function.update cache.entry i 0, usage := usage } =
      cache.occupied.erase i := by
  ext j
  by_cases hj : j = i <;> simp [occupied, Function.update_apply, hj]

theorem mem_occupied : i ∈ cache.occupied ↔ cache.entry i ≠ 0 := by simp [occupied]

theorem Counted.bounds (h : cache.Counted) : 0 ≤ cache.usage ∧ cache.usage ≤ cacheSize := by
  have hcard : cache.occupied.card ≤ cacheSize := card_finset_fin_le cache.occupied
  unfold Counted at h
  omega

theorem counted_of_entry_eq_zero (he : ∀ i, cache.entry i = 0) (hu : cache.usage = 0) :
    cache.Counted := by
  have hempty : cache.occupied = ∅ := by
    ext i
    simp [mem_occupied, he]
  rw [Counted, hempty, hu]
  rfl

theorem counted_init : Counted initQpCache := counted_of_entry_eq_zero (fun _ => rfl) rfl

/-- The insertion of a fresh handle leaves the counter behind. -/
theorem not_counted_insert (h : cache.Counted) (he : cache.entry i = 0) :
    ¬ Counted { cache with entry := Function.update cache.entry i 1 } := by
  have hnot : i ∉ cache.occupied := by simp [mem_occupied, he]
  unfold Counted at h ⊢
  rw [occupied_insert, Finset.card_insert_of_notMem hnot]
  push_cast
  omega

theorem counted_delete_iff (h : cache.Counted) :
    Counted { cache with entry := Function.update cache.entry i 0, usage := cache.usage - 1 } ↔
      cache.entry i ≠ 0 := by
  rw [← mem_occupied, Counted, occupied_delete]
  unfold Counted at h
  show cache.usage - 1 = _ ↔ _
  by_cases hi : i ∈ cache.occupied
  · have hpos := Finset.card_pos.mpr ⟨i, hi⟩
    rw [Finset.card_erase_of_mem hi]
    simp only [hi, iff_true]
    omega
  · rw [Finset.erase_eq_of_notMem hi]
    simp only [hi, iff_false]
    omega

/-- A call with a handle outside the array is undefined. -/
theorem exists_slot_of_step {call : Call} {cache' : QpCache} {value : ℕ}
    (hcall : call = .cacheFindOrInsert value ∨ call = .cacheDelete value)
    (hs : step cache call = some cache') : ∃ i, slot value = some i := by
  cases hi : slot value with
  | some i => exact ⟨i, rfl⟩
  | none =>
    obtain rfl | rfl := hcall
    · simp [step, QpCache.cacheFindOrInsert, cacheFind, hi] at hs
    · simp [step, QpCache.cacheDelete, hi] at hs

/-- From a cache that counts its slots, a call keeps the count exactly when it names a handle
that is there. -/
theorem step_keeps_iff (call : Call) (h : cache.Counted) :
    (∃ cache', step cache call = some cache' ∧ Keeps cache call cache') ↔ Holds cache call := by
  have hempty {cache' : QpCache} (he : ∀ i, cache'.entry i = 0) (hu : cache'.usage = 0)
      (hcall : ∀ value, call ≠ .cacheFindOrInsert value ∧ call ≠ .cacheDelete value) :
      Keeps cache call cache' := by
    have hcounted := counted_of_entry_eq_zero he hu
    exact ⟨hcounted, hcounted.bounds, fun value _ hc => absurd hc (hcall value).1,
      fun value _ hc => absurd hc (hcall value).2, fun value _ hc => absurd hc (hcall value).1⟩
  cases call with
  | initQpCache =>
    exact iff_of_true ⟨_, rfl, hempty (fun _ => rfl) rfl (by simp)⟩ trivial
  | cacheFlush =>
    exact iff_of_true ⟨_, rfl, hempty (fun _ => rfl) rfl (by simp)⟩ trivial
  | cacheFindOrInsert value =>
    constructor
    · rintro ⟨cache', hs, hk⟩
      obtain ⟨i, hi⟩ := exists_slot_of_step (.inl rfl) hs
      refine ⟨i, hi, fun he => ?_⟩
      rw [step, cacheFindOrInsert_eq hi, if_neg (not_not.mpr he)] at hs
      obtain rfl := Option.some.inj hs
      exact not_counted_insert h he hk.counted
    · rintro ⟨i, hi, he⟩
      refine ⟨cache, by rw [step, cacheFindOrInsert_eq hi, if_pos he], h, h.bounds,
        fun _ _ _ _ _ => rfl, fun _ _ hc => (nomatch hc), fun v j hc hj hz => ?_⟩
      obtain rfl := Call.cacheFindOrInsert.inj hc
      obtain rfl := Option.some.inj (hi.symm.trans hj)
      exact absurd hz he
  | cacheDelete value =>
    constructor
    · rintro ⟨cache', hs, hk⟩
      obtain ⟨i, hi⟩ := exists_slot_of_step (.inr rfl) hs
      rw [step, cacheDelete_eq hi h.bounds.1] at hs
      obtain rfl := Option.some.inj hs
      exact ⟨i, hi, (counted_delete_iff h).mp hk.counted⟩
    · rintro ⟨i, hi, he⟩
      have hcounted := (counted_delete_iff h).mpr he
      refine ⟨_, cacheDelete_eq hi h.bounds.1, hcounted, hcounted.bounds,
        fun _ _ hc => (nomatch hc), fun v j hc hj hz => ?_, fun _ _ hc => (nomatch hc)⟩
      obtain rfl := Call.cacheDelete.inj hc
      obtain rfl := Option.some.inj (hi.symm.trans hj)
      exact absurd hz he

theorem delivers_iff_holds (h : cache.Counted) {calls : List Call} :
    Delivers step Keeps cache calls ↔ Meets step Holds cache calls := by
  apply delivers_iff_meets (P := Counted) (c := fun _ => True) _ _ h fun _ _ => trivial
  · intro cache call hc _
    exact step_keeps_iff call hc
  · intro cache call cache' hc _ hh hs
    obtain ⟨t, ht, hk⟩ := (step_keeps_iff call hc).mpr hh
    obtain rfl := Option.some.inj (ht.symm.trans hs)
    exact hk.counted

end Calls

/-- A call that neither inserts nor deletes. -/
def Call.Clears (call : Call) : Prop := call = .initQpCache ∨ call = .cacheFlush

/-- An empty cache holds no handle, so only the clearing calls keep it, and they leave it
empty. -/
theorem meets_holds_iff {cache : QpCache} (he : ∀ i, cache.entry i = 0) {calls : List Call} :
    Meets step Holds cache calls ↔ ∀ call ∈ calls, call.Clears := by
  induction calls generalizing cache with
  | nil => simp [Meets]
  | cons call calls ih =>
    rw [List.forall_mem_cons]
    have hheld {value : ℕ} : ¬ ∃ i, slot value = some i ∧ cache.entry i ≠ 0 :=
      fun ⟨i, _, hne⟩ => hne (he i)
    cases call with
    | initQpCache =>
      exact and_congr (iff_of_true trivial (Or.inl rfl)) (ih fun _ => rfl)
    | cacheFlush =>
      exact and_congr (iff_of_true trivial (Or.inr rfl)) (ih fun _ => rfl)
    | cacheFindOrInsert value =>
      exact iff_of_false (fun hm => hheld hm.head) (by simp [Call.Clears])
    | cacheDelete value =>
      exact iff_of_false (fun hm => hheld hm.head) (by simp [Call.Clears])

/-- After the initial call, the counter is right as long as nothing is inserted or deleted,
and no longer. -/
theorem counted_iff_clears (cache : QpCache) (calls : List Call) :
    Delivers step Keeps cache (.initQpCache :: calls) ↔ ∀ call ∈ calls, call.Clears := by
  have hempty : ∀ i, initQpCache.entry i = 0 := fun _ => rfl
  rw [← meets_holds_iff hempty, ← delivers_iff_holds counted_init]
  constructor
  · rintro ⟨cache', hs, -, hrest⟩
    obtain rfl := Option.some.inj hs
    exact hrest
  · intro hrest
    exact ⟨_, rfl, ⟨counted_init, counted_init.bounds, fun _ _ hc => (nomatch hc),
      fun _ _ hc => (nomatch hc), fun _ _ hc => (nomatch hc)⟩, hrest⟩

/-- After one insertion a slot is in use and the counter is zero, and the deletion of the same
handle makes it negative; a handle past the array is written outside of it. -/
theorem insertion_not_counted :
    ((run step initQpCache [.cacheFindOrInsert 7]).any fun c =>
      c.usage = 0 ∧ c.occupied.card = 1) ∧
    ((run step initQpCache [.cacheFindOrInsert 7, .cacheDelete 7]).any fun c =>
      c.usage = -1 ∧ c.occupied.card = 0) ∧
    run step initQpCache [.cacheFindOrInsert 500] = none ∧
    ¬ Delivers step Keeps initQpCache [.initQpCache, .cacheFindOrInsert 7] := by
  refine ⟨by decide +kernel, by decide +kernel, rfl, ?_⟩
  rintro ⟨c, hc, -, c', hc', hk, -⟩
  obtain rfl := Option.some.inj hc
  obtain ⟨i, -, hne⟩ := (step_keeps_iff _ counted_init).mp ⟨c', hc', hk⟩
  exact hne rfl

end RdmaperfIso.QpCache
