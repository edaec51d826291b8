import RdmaperfIso.Mlx5.Payload

/-! The payload of an accepted list on any queue pair. Where a header is copied out of the
first entries, the data starts inside one of them, and less is described than was asked for.
The scatter position is carried over from one request to the next, and has to lie within the
entry at which a request starts. -/
namespace RdmaperfIso.Mlx5
open Outcome

variable {qp : Qp} {wr : SendWr} {b b' : Build}

section Header

/-- The loop uses up entries one by one, and the last one at most to its end. -/
theorem copyHeaders_spec {nelem left j length copy : ℕ} {lengths : List ℕ} {r : ℕ × ℕ × ℕ}
    (h : copyHeaders nelem left lengths j length copy = ok r) :
    r = (j, length, copy) ∨ ∃ k, r.1 = j + k + 1 ∧ lengths[k]? = some r.2.1 ∧ r.2.2 ≤ r.2.1 := by
  induction lengths generalizing nelem left j length copy with
  | nil =>
    unfold copyHeaders at h
    split at h
    · simp only [bind_eq_ok, pure_eq_ok] at h
      obtain ⟨-, -, rfl⟩ := h
      exact Or.inl rfl
    · cases h
  | cons l ls ih =>
    unfold copyHeaders at h
    split at h
    · simp only [bind_eq_ok, pure_eq_ok] at h
      obtain ⟨-, -, rfl⟩ := h
      exact Or.inl rfl
    · right
      rcases ih h with rfl | ⟨k, hk, hget, hle⟩
      · exact ⟨0, rfl, rfl, min_le_left _ _⟩
      · exact ⟨k + 1, by omega, hget, hle⟩

/-- The data starts at the beginning of an entry, or within the entry at its index. -/
theorem copyEthInlineHeaders_spec {inlHdrSize nelem : ℕ} {lengths : List ℕ} {ptr : SgCopyPtr}
    (hinl : inlHdrSize ≤ 18) (h : copyEthInlineHeaders inlHdrSize nelem lengths = ok ptr) :
    ptr.offset = 0 ∨ ∃ l, lengths[ptr.index]? = some l ∧ ptr.offset ≤ l := by
  have hend {j length copy : ℕ} (hget : lengths[j]? = some length) (hle : copy ≤ length) :
      (headerEnd j length copy).offset = 0 ∨ ∃ l,
        lengths[(headerEnd j length copy).index]? = some l ∧
          (headerEnd j length copy).offset ≤ l := by
    unfold headerEnd
    split_ifs
    · exact Or.inl rfl
    · exact Or.inr ⟨length, hget, hle⟩
  simp only [copyEthInlineHeaders, bind_eq_ok] at h
  obtain ⟨-, -, h⟩ := h
  split at h
  next => cases h
  next l ls =>
    split at h <;> simp only [bind_eq_ok, pure_eq_ok] at h
    next hl =>
      subst h
      exact hend rfl (hinl.trans hl)
    next =>
      obtain ⟨r, hr, rfl⟩ := h
      rcases copyHeaders_spec hr with rfl | ⟨k, hk, hget, hle⟩
      · exact hend rfl (Nat.zero_le _)
      · rw [hk, Nat.zero_add, Nat.add_sub_cancel]
        exact hend hget hle

theorem getElem?_of_mem_head?_drop {s : Sge} {n : ℕ} (h : s ∈ (wr.sges.drop n).head?) :
    wr.sgList[n]? = some s := by
  rw [List.head?_drop, SendWr.sges, List.getElem?_take] at h
  split_ifs at h
  · exact h
  · cases h

theorem underlayHeader_le {length : ℕ} (h : 4 ≤ length) : underlayHeader wr length ≤ length := by
  unfold underlayHeader
  split_ifs with h18
  · exact h18.1
  · exact h

end Header

section Position

/-- The scatter position at which the data of a request starts. -/
def startPtr (qp : Qp) (wr : SendWr) (ptr : SgCopyPtr) : Outcome Errno SgCopyPtr :=
  match qp.qpType with
  | .rawPacket =>
    if wr.opcode = .tso then pure ptr
    else copyEthInlineHeaders qp.ethMinInlineSize (wr.numSge % 2 ^ 64).toNat
      (wr.sgList.map fun s => s.length.toNat)
  | .ud =>
    if qp.underlay then
      match wr.sgList with
      | [] => undefined
      | s :: _ => do
        let hdr := underlayHeader wr s.length.toNat
        check (4 ≤ s.length.toNat) .einval
        pure (if s.length.toNat = hdr then ⟨ptr.index + 1, ptr.offset⟩ else ⟨ptr.index, hdr⟩)
    else pure ptr
  | _ => pure ptr

/-- The position that a request leaves: an offset ends with the first entry that is gathered, but
not with an inline copy. -/
def endPtr (wr : SendWr) (ptr : SgCopyPtr) : SgCopyPtr :=
  if wr.sendFlags.inline ∧ wr.numSge ≠ 0 then ptr
  else if ∀ s ∈ wr.sges.drop ptr.index, s.length = 0 then ptr else ⟨ptr.index, 0⟩

theorem transportSegs_startPtr (h : transportSegs qp wr b = ok b') :
    startPtr qp wr b.ptr = ok b'.ptr := by
  unfold startPtr
  cases hty : qp.qpType with
  | rawPacket =>
    simp only [transportSegs, hty, ethSegs, bind_eq_ok] at h
    obtain ⟨-, -, -, -, h⟩ := h
    dsimp only
    split_ifs at h ⊢ with hop <;> simp only [bind_eq_ok, pure_eq_ok] at h
    · obtain ⟨c, -, rfl⟩ := h
      rfl
    · obtain ⟨ptr, hptr, c, -, rfl⟩ := h
      exact hptr
  | ud =>
    simp only [transportSegs, hty, bind_eq_ok] at h
    obtain ⟨c, -, h⟩ := h
    dsimp only
    split_ifs at h ⊢ with hunder
    · simp only [postSendUnderlay, bind_eq_ok] at h
      obtain ⟨-, -, c₁, -, -, -, h⟩ := h
      cases hlist : wr.sgList with
      | nil =>
        rw [hlist] at h
        cases h
      | cons s sgList =>
        simp only [hlist, bind_eq_ok, check_eq_ok, pure_eq_ok] at h
        obtain ⟨-, h4, c₂, -, rfl⟩ := h
        exact bind_eq_ok.mpr ⟨(), check_eq_ok.mpr h4, rfl⟩
    · rw [pure_eq_ok] at h
      rw [← h]
      rfl
  | rc | uc | xrcSend | xrcRecv | driver =>
    have hcopy : qp.copiesHeader = false := by simp [Qp.copiesHeader, hty]
    rw [transportSegs_ptr hcopy h]
    rfl

theorem gather_endPtr {op : WrOpcode} {sges : List Sge}
    (h : sges.foldlM (gatherOne qp op) b = ok b') :
    b'.ptr = if ∀ s ∈ sges, s.length = 0 then b.ptr else ⟨b.ptr.index, 0⟩ := by
  induction sges generalizing b with
  | nil =>
    rw [foldlM_nil_eq_ok] at h
    simp [h]
  | cons s sges ih =>
    obtain ⟨b₁, h₁, h⟩ := foldlM_cons_eq_ok.mp h
    rw [ih h]
    rcases gatherOne_cases h₁ with ⟨hzero, hptr, -⟩ | ⟨hne, hptr, -⟩
    · simp [hptr, hzero]
    · simp [hptr, hne]

theorem dataSegs_endPtr (h : dataSegs qp wr b = ok b') : b'.ptr = endPtr wr b.ptr := by
  simp only [dataSegs] at h
  unfold endPtr
  split_ifs at h ⊢ with hinl hempty
  · exact setDataInlSeg_ptr h
  · rw [gather_endPtr h, if_pos hempty]
  · rw [gather_endPtr h, if_neg hempty]

/-- Every request of the list starts within the entry at its scatter position. Nothing is said
from the first request on that is refused for its header. -/
def StartsEach (qp : Qp) : SgCopyPtr → List SendWr → Prop
  | _, [] => True
  | ptr, wr :: wrs =>
    match startPtr qp wr ptr with
    | ok ptr => StartsWithin ptr.offset (wr.sges.drop ptr.index) ∧
        StartsEach qp (endPtr wr ptr) wrs
    | _ => True

instance (offset : ℕ) (sges : List Sge) : Decidable (StartsWithin offset sges) :=
  inferInstanceAs (Decidable (∀ s ∈ sges.head?, offset ≤ s.length.toNat))

def decidableStartsEach (qp : Qp) :
    (ptr : SgCopyPtr) → (wrs : List SendWr) → Decidable (StartsEach qp ptr wrs)
  | _, [] => isTrue trivial
  | ptr, wr :: wrs =>
    match h : startPtr qp wr ptr with
    | ok ptr =>
      have := decidableStartsEach qp (endPtr wr ptr) wrs
      decidable_of_iff (StartsWithin ptr.offset (wr.sges.drop ptr.index) ∧
        StartsEach qp (endPtr wr ptr) wrs) (by simp only [StartsEach, h])
    | error _ => isTrue (by simp only [StartsEach, h])
    | undefined => isTrue (by simp only [StartsEach, h])

instance (qp : Qp) (ptr : SgCopyPtr) (wrs : List SendWr) : Decidable (StartsEach qp ptr wrs) :=
  decidableStartsEach qp ptr wrs

variable {ptr ptr' : SgCopyPtr} {wrs : List SendWr}

theorem StartsEach.cons (h : StartsEach qp ptr (wr :: wrs)) (hptr : startPtr qp wr ptr = ok ptr') :
    StartsWithin ptr'.offset (wr.sges.drop ptr'.index) ∧ StartsEach qp (endPtr wr ptr') wrs := by
  simpa only [StartsEach, hptr] using h

theorem StartsEach.of_append {wrs' : List SendWr} (h : StartsEach qp ptr (wrs ++ wrs')) :
    StartsEach qp ptr wrs := by
  induction wrs generalizing ptr with
  | nil => trivial
  | cons wr wrs ih =>
    rw [List.cons_append] at h
    unfold StartsEach at h ⊢
    split
    next ptr' hptr =>
      rw [hptr] at h
      exact ⟨h.1, ih h.2⟩
    next => trivial

/-- A position within the header is one within the entry, where a request takes its own. -/
theorem startPtr_startsWithin (hop : qp.qpType = .rawPacket → wr.opcode ≠ .tso)
    (hptr : qp.qpType ≠ .rawPacket → ptr = ⟨0, 0⟩) (h : startPtr qp wr ptr = ok ptr') :
    StartsWithin ptr'.offset (wr.sges.drop ptr'.index) := by
  have hzero : ptr = ⟨0, 0⟩ → ptr' = ptr → StartsWithin ptr'.offset (wr.sges.drop ptr'.index) := by
    rintro rfl rfl
    exact startsWithin_zero _
  unfold startPtr at h
  split at h
  next hraw =>
    rw [if_neg (hop hraw)] at h
    intro s hs
    have hget := getElem?_of_mem_head?_drop hs
    rcases copyEthInlineHeaders_spec qp.ethMinInlineSize_le h with h0 | ⟨l, hl, hle⟩
    · exact h0.le.trans (Nat.zero_le _)
    · rw [List.getElem?_map, hget] at hl
      obtain rfl := Option.some.inj hl
      exact hle
  next hud =>
    have hstart := hptr (by simp [hud])
    split_ifs at h with hunder
    · split at h
      next => cases h
      next s sgList hlist =>
        simp only [bind_eq_ok, check_eq_ok, pure_eq_ok] at h
        obtain ⟨-, h4, rfl⟩ := h
        rw [hstart]
        split_ifs with hlen
        · exact startsWithin_zero _
        · intro t ht
          have hget := getElem?_of_mem_head?_drop ht
          rw [hlist] at hget
          obtain rfl := Option.some.inj hget
          exact underlayHeader_le h4
    · exact hzero hstart (pure_eq_ok.mp h).symm
  next hraw _ => exact hzero (hptr hraw) (pure_eq_ok.mp h).symm

/-- On raw packets without segmentation offload every request takes its own position. -/
theorem startsEach_rawPacket (hraw : qp.qpType = .rawPacket) (hop : ∀ wr ∈ wrs, wr.opcode ≠ .tso)
    (ptr : SgCopyPtr) : StartsEach qp ptr wrs := by
  induction wrs generalizing ptr with
  | nil => trivial
  | cons wr wrs ih =>
    unfold StartsEach
    split
    next ptr' hptr =>
      exact ⟨startPtr_startsWithin (fun _ => hop wr List.mem_cons_self) (absurd hraw) hptr,
        ih (fun w hw => hop w (List.mem_cons_of_mem _ hw)) _⟩
    next => trivial

/-- A queue pair that copies no header always starts at the first entry. -/
theorem startsEach_of_copiesHeader (hqp : qp.copiesHeader = false) :
    StartsEach qp ⟨0, 0⟩ wrs := by
  have hraw : qp.qpType ≠ .rawPacket := fun hraw => by simp [Qp.copiesHeader, hraw] at hqp
  induction wrs with
  | nil => trivial
  | cons wr wrs ih =>
    have hptr : startPtr qp wr ⟨0, 0⟩ = ok ⟨0, 0⟩ := by
      simp only [Qp.copiesHeader, Bool.or_eq_false_iff, Bool.and_eq_false_imp,
        decide_eq_false_iff_not, decide_eq_true_eq] at hqp
      unfold startPtr
      split
      next hty => exact absurd hty hraw
      next hty => rw [hqp.2 hty, if_neg Bool.false_ne_true]; rfl
      next => rfl
    have hend : endPtr wr ⟨0, 0⟩ = ⟨0, 0⟩ := by
      unfold endPtr
      split_ifs <;> rfl
    simp only [StartsEach, hptr, hend]
    exact ⟨startsWithin_zero _, ih⟩

/-- So does the first request of a list on any queue pair, without segmentation offload. -/
theorem startsEach_singleton (hop : qp.qpType = .rawPacket → wr.opcode ≠ .tso) :
    StartsEach qp ⟨0, 0⟩ [wr] := by
  unfold StartsEach
  split
  next ptr' hptr => exact ⟨startPtr_startsWithin hop (fun _ => rfl) hptr, trivial⟩
  next => trivial

end Position

section Request
variable {sq : Sq} {st st' : PostState}

/-- The operands of an atomic request fit in its gather entries. -/
def HoldsOperand (wr : SendWr) : Prop :=
  isAtomic wr.opcode → wr.sendFlags.inline = false →
    ∀ s ∈ wr.sges, s.length ≠ 0 → 8 ≤ s.length.toNat

instance (wr : SendWr) : Decidable (HoldsOperand wr) :=
  inferInstanceAs (Decidable (_ → _ → _))

theorem dataSegs_payload_le (hat : HoldsOperand wr)
    (hs : StartsWithin b.ptr.offset (wr.sges.drop b.ptr.index)) (h : dataSegs qp wr b = ok b') :
    b'.cur.payload ≤ b.cur.payload + wr.bytes := by
  have hdrop : sgeBytes (wr.sges.drop b.ptr.index) ≤ wr.bytes := sgeBytes_drop_le _ _
  cases hop : isAtomic wr.opcode with
  | false =>
    have hpay := dataSegs_payload hop hs h
    omega
  | true =>
    simp only [dataSegs] at h
    split at h
    next =>
      have hpay := setDataInlSeg_payload hs h
      omega
    next hinl =>
      have hoperand : ∀ s ∈ wr.sges.drop b.ptr.index, s.length ≠ 0 → 8 ≤ s.length.toNat := by
        intro s hs hne
        have hmem := List.mem_of_mem_drop hs
        have hnum : wr.numSge ≠ 0 := by
          intro hzero
          simp [SendWr.sges, hzero] at hmem
        exact hat hop (by simpa [hnum] using hinl) s hmem hne
      have hpay := gather_atomic_payload hop hoperand h
      omega

theorem postOne_payload_le {wrs : List SendWr} (hstart : StartsEach qp st.ptr (wr :: wrs))
    (hat : HoldsOperand wr) (h : postOne qp sq st wr = ok st') :
    payload st'.wqes ≤ payload st.wqes + wr.bytes ∧ StartsEach qp st'.ptr wrs := by
  obtain ⟨-, -, b, b', w, ht, hzero, hb, ⟨b'', hd, hw, hptr⟩, hwqes⟩ := postOne_cases h
  obtain ⟨hs, hnext⟩ := hstart.cons (hb ▸ transportSegs_startPtr ht)
  have hpay := dataSegs_payload_le hat hs hd
  rw [transportSegs_payload ht, hzero, Nat.zero_add] at hpay
  constructor
  · rw [hwqes, payload_append, payload_singleton, hw]
    exact Nat.add_le_add_left hpay _
  · rwa [hptr, dataSegs_endPtr hd]

end Request

section List
variable {sq : Sq} {st st' : PostState} {wrs : List SendWr} {posted : Posted}

/-- Lists whose requests start within their gather entries, and whose atomic requests have room
for the operand. -/
structure Regular (qp : Qp) (wrs : List SendWr) : Prop where
  starts : StartsEach qp ⟨0, 0⟩ wrs
  operand : ∀ wr ∈ wrs, HoldsOperand wr

instance (qp : Qp) (wrs : List SendWr) : Decidable (Regular qp wrs) :=
  decidable_of_iff (StartsEach qp ⟨0, 0⟩ wrs ∧ ∀ wr ∈ wrs, HoldsOperand wr)
    ⟨fun h => ⟨h.1, h.2⟩, fun h => ⟨h.starts, h.operand⟩⟩

/-- Lists that cannot carry a position over: no segmentation offload on raw packets, and one
request at a time on an underlay queue pair. -/
theorem regular_of_own_positions (htso : qp.qpType = .rawPacket → ∀ wr ∈ wrs, wr.opcode ≠ .tso)
    (hunder : qp.qpType = .ud → qp.underlay = true → wrs.length ≤ 1)
    (hop : ∀ wr ∈ wrs, HoldsOperand wr) : Regular qp wrs := by
  refine ⟨?_, hop⟩
  by_cases hcopy : qp.copiesHeader = false
  · exact startsEach_of_copiesHeader hcopy
  · simp only [Qp.copiesHeader, Bool.not_eq_false, Bool.or_eq_true, Bool.and_eq_true,
      decide_eq_true_eq] at hcopy
    rcases hcopy with hraw | ⟨hud, hu⟩
    · exact startsEach_rawPacket hraw (htso hraw) _
    · have hraw : qp.qpType ≠ .rawPacket := by simp [hud]
      rcases Nat.le_one_iff_eq_zero_or_eq_one.mp (hunder hud hu) with h0 | h1
      · rw [List.length_eq_zero_iff.mp h0]
        trivial
      · obtain ⟨wr, rfl⟩ := List.length_eq_one_iff.mp h1
        exact startsEach_singleton fun h => absurd h hraw

/-- On the way through a regular list each request starts within its entries. -/
theorem accepted_payload_le (hstart : StartsEach qp st.ptr wrs)
    (hop : ∀ wr ∈ wrs, HoldsOperand wr) (h : wrs.foldlM (postOne qp sq) st = ok st') :
    payload st'.wqes ≤ payload st.wqes + totalBytes wrs := by
  induction wrs generalizing st with
  | nil =>
    rw [foldlM_nil_eq_ok] at h
    rw [h]
    exact le_rfl
  | cons wr wrs ih =>
    obtain ⟨st₁, h₁, h⟩ := foldlM_cons_eq_ok.mp h
    obtain ⟨hone, hnext⟩ := postOne_payload_le hstart (hop wr List.mem_cons_self) h₁
    have hrest := ih hnext (fun w hw => hop w (List.mem_cons_of_mem _ hw)) h
    rw [totalBytes_cons]
    omega

/-- The payload that a call rings for is at most the bytes of its list. -/
theorem mlx5PostSend_payload_le (hreg : Regular qp wrs)
    (h : mlx5PostSend qp sq wrs = some posted) : payload posted.rung ≤ totalBytes wrs := by
  obtain ⟨done, st', hsplit, hfold, hrung⟩ := postLoop_accepted h
  subst hsplit
  have hle := accepted_payload_le hreg.starts.of_append
    (fun wr hwr => hreg.operand wr (List.mem_append_left _ hwr)) hfold
  rw [payload_nil, Nat.zero_add] at hle
  rw [hrung, totalBytes_append]
  omega

end List
end RdmaperfIso.Mlx5
