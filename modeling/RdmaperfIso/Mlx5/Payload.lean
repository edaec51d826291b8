import RdmaperfIso.Mlx5.PostSend
import RdmaperfIso.Verbs.PostSend

/-! The payload that the entries of a posted list describe, compared with the size that
the limiter was asked for. -/
namespace RdmaperfIso.Mlx5
open FixedWidth Outcome

variable {qp : Qp} {wr : SendWr} {b b' : Build} {c c' : Cursor} {s : Sge} {sges : List Sge}

/-- Queue pairs that move the start of a packet into its Ethernet segment. -/
def Qp.copiesHeader (qp : Qp) : Bool :=
  qp.qpType = .rawPacket || qp.qpType = .ud && qp.underlay

def sgeBytes (sges : List Sge) : ℕ := (sges.map fun s => s.length.toNat).sum

@[simp] theorem sgeBytes_nil : sgeBytes [] = 0 := rfl

@[simp] theorem sgeBytes_cons (s : Sge) (sges : List Sge) :
    sgeBytes (s :: sges) = s.length.toNat + sgeBytes sges := by
  simp [sgeBytes]

theorem sgeBytes_drop_le (n : ℕ) (sges : List Sge) : sgeBytes (sges.drop n) ≤ sgeBytes sges := by
  apply List.Sublist.sum_le_sum
  · exact (List.drop_sublist n sges).map _
  · simp

section Transport

theorem setBindWr_payload {type : MwType} {info : BindInfo} {rkey : UInt32}
    (h : setBindWr type info qp rkey c = ok c') : c'.payload = c.payload := by
  have hctrl : (umrControlSeg type info).payload = 0 := by
    simp only [umrControlSeg]
    split_ifs <;> rfl
  simp only [setBindWr, bind_eq_ok] at h
  obtain ⟨-, -, c₁, h₁, c₂, h₂, h⟩ := h
  have hkey : c₂.payload = c.payload := by
    rw [Cursor.payload_put h₂, Cursor.payload_wrap, Cursor.payload_put h₁, hctrl]
    rfl
  split_ifs at h
  · rw [pure_eq_ok] at h
    rw [← h, hkey]
  · rw [Cursor.payload_put h, hkey]
    rfl

theorem rcSegs_payload (h : rcSegs qp wr c = ok c') : c'.payload = c.payload := by
  unfold rcSegs at h
  split at h
  case h_1 | h_2 | h_3 => exact Cursor.payload_put h
  case h_4 | h_5 =>
    simp only [bind_eq_ok] at h
    obtain ⟨-, -, c₁, h₁, h⟩ := h
    rw [Cursor.payload_put h, Cursor.payload_put h₁]
    rfl
  case h_6 | h_7 => exact setBindWr_payload h
  case h_8 =>
    rw [pure_eq_ok] at h
    rw [h]

theorem xrcSegs_payload (h : xrcSegs qp wr c = ok c') : c'.payload = c.payload := by
  unfold xrcSegs at h
  split_ifs at h
  · exact Cursor.payload_put h
  · rw [pure_eq_ok] at h
    rw [h]

theorem ucSegs_payload (h : ucSegs qp wr c = ok c') : c'.payload = c.payload := by
  unfold ucSegs at h
  split at h
  case h_1 | h_2 => exact Cursor.payload_put h
  case h_3 | h_4 => exact setBindWr_payload h
  case h_5 =>
    rw [pure_eq_ok] at h
    rw [h]

theorem setTsoEthSeg_payload {csum : Bool} {hdrSz : ℕ} {mss : UInt16}
    (h : setTsoEthSeg qp csum hdrSz mss c = ok c') : c'.payload = c.payload := by
  simp only [setTsoEthSeg, bind_eq_ok, pure_eq_ok] at h
  obtain ⟨-, -, -, -, rfl⟩ := h
  simp [Cursor.payload, Segment.payload]

theorem postSendUnderlay_payload (h : postSendUnderlay qp wr b = ok b') :
    b'.cur.payload = b.cur.payload := by
  simp only [postSendUnderlay, bind_eq_ok] at h
  obtain ⟨-, -, c₁, h₁, -, -, h⟩ := h
  split at h
  next => cases h
  next =>
    simp only [bind_eq_ok, pure_eq_ok] at h
    obtain ⟨-, -, c₂, h₂, rfl⟩ := h
    show c₂.payload = _
    rw [Cursor.payload_put h₂, Cursor.payload_put h₁]
    rfl

theorem ethSegs_payload (h : ethSegs qp wr b = ok b') : b'.cur.payload = b.cur.payload := by
  simp only [ethSegs, bind_eq_ok] at h
  obtain ⟨-, -, -, -, h⟩ := h
  split at h <;> simp only [bind_eq_ok, pure_eq_ok] at h
  next =>
    obtain ⟨c, hc, rfl⟩ := h
    exact setTsoEthSeg_payload hc
  next =>
    obtain ⟨ptr, -, c, hc, rfl⟩ := h
    exact Cursor.payload_put hc

/-- The segments before the data describe no payload. -/
theorem transportSegs_payload (h : transportSegs qp wr b = ok b') :
    b'.cur.payload = b.cur.payload := by
  unfold transportSegs at h
  split at h
  case h_1 =>
    simp only [bind_eq_ok, pure_eq_ok] at h
    obtain ⟨c₁, h₁, c₂, h₂, rfl⟩ := h
    exact (rcSegs_payload h₂).trans (xrcSegs_payload h₁)
  case h_2 =>
    simp only [bind_eq_ok, pure_eq_ok] at h
    obtain ⟨c, hc, rfl⟩ := h
    exact rcSegs_payload hc
  case h_3 =>
    simp only [bind_eq_ok, pure_eq_ok] at h
    obtain ⟨c, hc, rfl⟩ := h
    exact ucSegs_payload hc
  case h_4 =>
    simp only [bind_eq_ok] at h
    obtain ⟨c, hc, h⟩ := h
    have hud : (c.wrap qp.qend).payload = b.cur.payload := by
      rw [Cursor.payload_wrap, Cursor.payload_put hc]
      rfl
    split_ifs at h
    · rw [postSendUnderlay_payload h, hud]
    · rw [pure_eq_ok] at h
      rw [← h, hud]
  case h_5 => exact ethSegs_payload h
  case h_6 | h_7 =>
    rw [pure_eq_ok] at h
    rw [h]

/-- A queue pair that copies no header starts at the same entry for every request. -/
theorem transportSegs_ptr (hqp : qp.copiesHeader = false) (h : transportSegs qp wr b = ok b') :
    b'.ptr = b.ptr := by
  simp only [Qp.copiesHeader, Bool.or_eq_false_iff, Bool.and_eq_false_imp, decide_eq_false_iff_not,
    decide_eq_true_eq] at hqp
  obtain ⟨hraw, hunder⟩ := hqp
  unfold transportSegs at h
  split at h
  case h_5 hty => exact absurd hty hraw
  case h_6 | h_7 =>
    rw [pure_eq_ok] at h
    rw [h]
  case h_4 hty =>
    simp only [bind_eq_ok, hunder hty, Bool.false_eq_true, if_false, pure_eq_ok] at h
    obtain ⟨c, -, rfl⟩ := h
    rfl
  case h_1 =>
    simp only [bind_eq_ok, pure_eq_ok] at h
    obtain ⟨-, -, c, -, rfl⟩ := h
    rfl
  case h_2 | h_3 =>
    simp only [bind_eq_ok, pure_eq_ok] at h
    obtain ⟨c, -, rfl⟩ := h
    rfl

end Transport

section Data
variable {op : WrOpcode} {r r' : InlineCopy}

/-- An offset that lies within the first entry, if there is one. -/
def StartsWithin (offset : ℕ) (sges : List Sge) : Prop :=
  ∀ s ∈ sges.head?, offset ≤ s.length.toNat

theorem startsWithin_zero (sges : List Sge) : StartsWithin 0 sges := fun _ _ => Nat.zero_le _

/-- An empty entry is skipped; any other one gets a segment and ends the offset. -/
theorem gatherOne_cases (h : gatherOne qp op b s = ok b') :
    (s.length = 0 ∧ b'.ptr = b.ptr ∧ b'.cur.payload = b.cur.payload) ∨
      (s.length ≠ 0 ∧ b'.ptr = ⟨b.ptr.index, 0⟩ ∧ b'.cur.payload = b.cur.payload +
        if isAtomic op then 8 else (s.length - UInt32.ofNat b.ptr.offset).toNat) := by
  simp only [gatherOne] at h
  split at h
  next hzero =>
    rw [pure_eq_ok] at h
    left
    rw [← h]
    exact ⟨hzero, rfl, Cursor.payload_wrap⟩
  next hzero =>
    right
    split at h
    next hat =>
      simp only [bind_eq_ok, pure_eq_ok] at h
      obtain ⟨c, hc, rfl⟩ := h
      rw [if_pos hat]
      exact ⟨hzero, rfl, by rw [Cursor.payload_put hc, Cursor.payload_wrap]; rfl⟩
    next hat =>
      simp only [bind_eq_ok, pure_eq_ok] at h
      obtain ⟨-, -, c, hc, rfl⟩ := h
      rw [if_neg hat]
      exact ⟨hzero, rfl, by rw [Cursor.payload_put hc, Cursor.payload_wrap]; rfl⟩

/-- One entry adds its length, less the offset at which it starts. -/
theorem gatherOne_payload (hop : isAtomic op = false) (hs : b.ptr.offset ≤ s.length.toNat)
    (h : gatherOne qp op b s = ok b') :
    b'.cur.payload + b.ptr.offset = b.cur.payload + s.length.toNat ∧ b'.ptr.offset = 0 := by
  rcases gatherOne_cases h with ⟨hzero, hptr, hpay⟩ | ⟨-, hptr, hpay⟩
  · have hoff : b.ptr.offset = 0 := by simpa [hzero] using hs
    rw [hptr, hpay, hzero, hoff]
    exact ⟨rfl, rfl⟩
  · have hlt := s.length.toNat_lt
    have hoff : (UInt32.ofNat b.ptr.offset).toNat = b.ptr.offset := by
      rw [UInt32.toNat_ofNat', Nat.mod_eq_of_lt (by omega)]
    have hle : UInt32.ofNat b.ptr.offset ≤ s.length := by
      rw [UInt32.le_iff_toNat_le, hoff]
      exact hs
    rw [hptr, hpay, hop, if_neg Bool.false_ne_true, UInt32.toNat_sub_of_le _ _ hle, hoff]
    exact ⟨by omega, rfl⟩

theorem gather_payload (hop : isAtomic op = false) (hs : StartsWithin b.ptr.offset sges)
    (h : sges.foldlM (gatherOne qp op) b = ok b') :
    b'.cur.payload + (if sges = [] then 0 else b.ptr.offset) = b.cur.payload + sgeBytes sges := by
  induction sges generalizing b with
  | nil =>
    rw [foldlM_nil_eq_ok] at h
    simp [h]
  | cons s sges ih =>
    obtain ⟨b₁, h₁, h⟩ := foldlM_cons_eq_ok.mp h
    obtain ⟨hstep, hoff⟩ := gatherOne_payload hop (hs s rfl) h₁
    have hrest := ih (by rw [hoff]; exact startsWithin_zero _) h
    rw [hoff, ite_self, add_zero] at hrest
    rw [if_neg (List.cons_ne_nil _ _), sgeBytes_cons]
    omega

/-- An atomic operation describes no more than its entries if they hold its operand. -/
theorem gather_atomic_payload (hop : isAtomic op = true)
    (hs : ∀ s ∈ sges, s.length ≠ 0 → 8 ≤ s.length.toNat)
    (h : sges.foldlM (gatherOne qp op) b = ok b') :
    b'.cur.payload ≤ b.cur.payload + sgeBytes sges := by
  induction sges generalizing b with
  | nil =>
    rw [foldlM_nil_eq_ok] at h
    simp [h]
  | cons s sges ih =>
    obtain ⟨b₁, h₁, h⟩ := foldlM_cons_eq_ok.mp h
    have hrest := ih (fun t ht => hs t (List.mem_cons_of_mem _ ht)) h
    have hstep : b₁.cur.payload ≤ b.cur.payload + s.length.toNat := by
      rcases gatherOne_cases h₁ with ⟨-, -, hpay⟩ | ⟨hne, -, hpay⟩
      · rw [hpay]
        exact Nat.le_add_right _ _
      · rw [hpay, if_pos hop]
        exact Nat.add_le_add_left (hs s List.mem_cons_self hne) _
    rw [sgeBytes_cons]
    omega

theorem gather_ptr (h : sges.foldlM (gatherOne qp op) b = ok b') (hb : b.ptr = ⟨0, 0⟩) :
    b'.ptr = ⟨0, 0⟩ := by
  induction sges generalizing b with
  | nil =>
    rw [foldlM_nil_eq_ok] at h
    rw [← h, hb]
  | cons s sges ih =>
    obtain ⟨b₁, h₁, h⟩ := foldlM_cons_eq_ok.mp h
    apply ih h
    rcases gatherOne_cases h₁ with ⟨-, hptr, -⟩ | ⟨-, hptr, -⟩ <;> rw [hptr, hb]

/-- The length of a piece is an `int`: what is copied is less than two gigabytes. -/
theorem copyOne_inl (hr : 0 ≤ r.inl) (hs : r.offset ≤ s.length.toNat)
    (h : copyOne qp r s = ok r') :
    r'.inl + r.offset = r.inl + s.length.toNat ∧ 0 ≤ r'.inl ∧ r'.offset = 0 := by
  have hlen : 0 ≤ toSigned 32 (s.length.toNat - r.offset) →
      toSigned 32 (s.length.toNat - r.offset) = s.length.toNat - r.offset := by
    intro h0
    have hlt := s.length.toNat_lt
    have hcast : (s.length.toNat - r.offset : ℤ) = (s.length.toNat - r.offset : ℕ) := by omega
    rw [hcast] at h0 ⊢
    unfold toSigned at h0 ⊢
    rw [Int.bmod_def] at h0 ⊢
    split_ifs at h0 ⊢ <;> omega
  simp only [copyOne, bind_eq_ok, require_eq_ok, check_eq_ok] at h
  obtain ⟨-, hint, -, -, h⟩ := h
  split_ifs at h with hwrap
  · simp only [bind_eq_ok, require_eq_ok, pure_eq_ok] at h
    obtain ⟨-, ⟨hwqe, -⟩, rfl⟩ := h
    have hpos := hlen (by omega)
    exact ⟨by simp only [hpos]; omega, by simp only [hpos]; omega, rfl⟩
  · simp only [bind_eq_ok, require_eq_ok, pure_eq_ok] at h
    obtain ⟨-, h0, rfl⟩ := h
    have hpos := hlen h0
    exact ⟨by simp only [hpos]; omega, by simp only [hpos]; omega, rfl⟩

theorem copy_inl (hr : 0 ≤ r.inl) (hs : StartsWithin r.offset sges)
    (h : sges.foldlM (copyOne qp) r = ok r') :
    r'.inl + (if sges = [] then 0 else r.offset) = r.inl + sgeBytes sges ∧ 0 ≤ r'.inl := by
  induction sges generalizing r with
  | nil =>
    rw [foldlM_nil_eq_ok] at h
    simp [← h, hr]
  | cons s sges ih =>
    obtain ⟨r₁, h₁, h⟩ := foldlM_cons_eq_ok.mp h
    obtain ⟨hstep, hr₁, hoff⟩ := copyOne_inl hr (hs s rfl) h₁
    obtain ⟨hrest, hr'⟩ := ih hr₁ (by rw [hoff]; exact startsWithin_zero _) h
    rw [hoff, ite_self, Nat.cast_zero, add_zero] at hrest
    rw [if_neg (List.cons_ne_nil _ _), sgeBytes_cons]
    constructor
    · push_cast
      omega
    · exact hr'

theorem setDataInlSeg_ptr (h : setDataInlSeg qp sges b = ok b') : b'.ptr = b.ptr := by
  simp only [setDataInlSeg, bind_eq_ok] at h
  obtain ⟨r, -, h⟩ := h
  split_ifs at h <;> rw [pure_eq_ok] at h <;> rw [← h]

theorem setDataInlSeg_payload (hs : StartsWithin b.ptr.offset sges)
    (h : setDataInlSeg qp sges b = ok b') :
    b'.cur.payload + (if sges = [] then 0 else b.ptr.offset) =
      b.cur.payload + sgeBytes sges := by
  simp only [setDataInlSeg, bind_eq_ok] at h
  obtain ⟨r, hr, h⟩ := h
  obtain ⟨hinl, hpos⟩ := copy_inl le_rfl hs hr
  simp only at hinl
  have hnat : r.inl.toNat + (if sges = [] then 0 else b.ptr.offset) = sgeBytes sges := by
    split_ifs at hinl ⊢ <;> omega
  split_ifs at h with hzero <;> rw [pure_eq_ok] at h
  · rw [← h, ← hnat, hzero]
    simp
  · rw [← h, ← hnat, Cursor.payload_addInline]
    omega

theorem dataSegs_payload (hop : isAtomic wr.opcode = false)
    (hs : StartsWithin b.ptr.offset (wr.sges.drop b.ptr.index)) (h : dataSegs qp wr b = ok b') :
    b'.cur.payload + (if wr.sges.drop b.ptr.index = [] then 0 else b.ptr.offset) =
      b.cur.payload + sgeBytes (wr.sges.drop b.ptr.index) := by
  simp only [dataSegs] at h
  split at h
  · exact setDataInlSeg_payload hs h
  · exact gather_payload hop hs h

theorem dataSegs_ptr (hb : b.ptr = ⟨0, 0⟩) (h : dataSegs qp wr b = ok b') : b'.ptr = ⟨0, 0⟩ := by
  simp only [dataSegs] at h
  split at h
  · rw [setDataInlSeg_ptr h, hb]
  · exact gather_ptr h hb

end Data

section Request
variable {sq : Sq} {st st' : PostState} {opcode : ℕ}

/-- An accepted request adds one entry, whose payload is that of its two parts. -/
theorem postOne_cases (h : postOne qp sq st wr = ok st') :
    wqOverflow qp.maxPost sq st.wqes.length = false ∧ wr.numSge ≤ qp.maxGs ∧
      ∃ b b' w, transportSegs qp wr b = ok b' ∧ b.cur.payload = 0 ∧ b.ptr = st.ptr ∧
        (∃ b'', dataSegs qp wr b' = ok b'' ∧ w.payload = b''.cur.payload ∧ st'.ptr = b''.ptr) ∧
          st'.wqes = st.wqes ++ [w] := by
  unfold postOne at h
  split at h
  next => cases h
  next opcode _ =>
    simp only [bind_eq_ok, check_eq_ok, mapError_eq_ok, buildWqe, require_eq_ok, pure_eq_ok] at h
    obtain ⟨-, hover, -, hsge, -, -, b', hb', b'', hb'', rfl⟩ := h
    exact ⟨hover, hsge, _, b', _, hb', rfl, rfl, ⟨b'', hb'', rfl, rfl⟩, rfl⟩

/-- A request on a queue pair that copies no header is described byte for byte, and leaves
the scatter position at the start for the next one. -/
theorem postOne_payload (hqp : qp.copiesHeader = false) (hop : isAtomic wr.opcode = false)
    (hptr : st.ptr = ⟨0, 0⟩) (h : postOne qp sq st wr = ok st') :
    payload st'.wqes = payload st.wqes + wr.bytes ∧ st'.ptr = ⟨0, 0⟩ := by
  obtain ⟨-, -, b, b', w, ht, hzero, hb, ⟨b'', hd, hw, hptr'⟩, hwqes⟩ := postOne_cases h
  have hb' : b'.ptr = ⟨0, 0⟩ := by rw [transportSegs_ptr hqp ht, hb, hptr]
  have hpay := dataSegs_payload hop (by rw [hb']; exact startsWithin_zero _) hd
  rw [transportSegs_payload ht, hzero, hb', ite_self, List.drop_zero] at hpay
  constructor
  · rw [hwqes, payload_append, payload_singleton, hw]
    simpa [SendWr.bytes, sgeBytes] using hpay
  · rw [hptr', dataSegs_ptr hb' hd]

end Request

section List
variable {sq : Sq} {st st' : PostState} {wrs : List SendWr} {posted : Posted}

/-- The requests from the refused one on. -/
def Posted.refused (p : Posted) : List SendWr := (p.failed.map Prod.snd).getD []

/-- A call accepts the requests before the refused one, and rings for their entries. -/
theorem postLoop_accepted (h : postLoop qp sq st wrs = some posted) :
    ∃ done st', wrs = done ++ posted.refused ∧ done.foldlM (postOne qp sq) st = ok st' ∧
      posted.rung = st'.wqes := by
  induction wrs generalizing st with
  | nil =>
    obtain rfl := Option.some.inj h
    exact ⟨[], st, rfl, rfl, rfl⟩
  | cons wr wrs ih =>
    rw [postLoop] at h
    split at h
    next st₁ h₁ =>
      obtain ⟨done, st', hsplit, hfold, hrung⟩ := ih h
      exact ⟨wr :: done, st', congrArg (wr :: ·) hsplit,
        foldlM_cons_eq_ok.mpr ⟨st₁, h₁, hfold⟩, hrung⟩
    next =>
      obtain rfl := Option.some.inj h
      exact ⟨[], st, rfl, rfl, rfl⟩
    next => cases h

/-- Every accepted request found room in the queue, and has no more entries than allowed. -/
theorem accepted_room (h : wrs.foldlM (postOne qp sq) st = ok st') :
    st'.wqes.length = st.wqes.length + wrs.length ∧
      (∀ nreq, st.wqes.length ≤ nreq → nreq < st'.wqes.length →
        wqOverflow qp.maxPost sq nreq = false) ∧
      ∀ wr ∈ wrs, wr.numSge ≤ qp.maxGs := by
  induction wrs generalizing st with
  | nil =>
    rw [foldlM_nil_eq_ok] at h
    subst h
    exact ⟨rfl, fun n h₁ h₂ => absurd h₁ (not_le.mpr h₂), by simp⟩
  | cons wr wrs ih =>
    obtain ⟨st₁, h₁, h⟩ := foldlM_cons_eq_ok.mp h
    obtain ⟨hover, hsge, -, -, w, -, -, -, -, hwqes⟩ := postOne_cases h₁
    obtain ⟨hlen, hroom, hgs⟩ := ih h
    have hone : st₁.wqes.length = st.wqes.length + 1 := by simp [hwqes]
    rw [List.length_cons]
    constructor
    · omega
    · constructor
      · intro nreq hlow hhigh
        rcases Nat.eq_or_lt_of_le hlow with rfl | hlt
        · exact hover
        · exact hroom nreq (by omega) hhigh
      · exact List.forall_mem_cons.mpr ⟨hsge, hgs⟩

/-- A failed call can be resumed: `bad_wr` is the request after those with an entry. -/
theorem refused_eq_drop (h : mlx5PostSend qp sq wrs = some posted) :
    posted.refused = wrs.drop posted.rung.length := by
  obtain ⟨done, st', hsplit, hfold, hrung⟩ := postLoop_accepted h
  have hlen : st'.wqes.length = done.length := by
    simpa using (accepted_room hfold).1
  rw [hrung, hlen, hsplit, List.drop_left]

theorem accepted_payload (hqp : qp.copiesHeader = false)
    (hop : ∀ wr ∈ wrs, isAtomic wr.opcode = false) (hptr : st.ptr = ⟨0, 0⟩)
    (h : wrs.foldlM (postOne qp sq) st = ok st') :
    payload st'.wqes = payload st.wqes + totalBytes wrs := by
  induction wrs generalizing st with
  | nil =>
    rw [foldlM_nil_eq_ok] at h
    rw [h]
    rfl
  | cons wr wrs ih =>
    obtain ⟨st₁, h₁, h⟩ := foldlM_cons_eq_ok.mp h
    obtain ⟨hpay, hptr₁⟩ := postOne_payload hqp (hop wr List.mem_cons_self) hptr h₁
    rw [ih (fun w hw => hop w (List.mem_cons_of_mem _ hw)) hptr₁ h, hpay, totalBytes_cons,
      Nat.add_assoc]

theorem bytes_le (h : wr.numSge ≤ qp.maxGs) : wr.bytes ≤ qp.maxGs.toNat * 2 ^ 32 := by
  have hlen : wr.sges.length ≤ qp.maxGs.toNat := by
    simp only [SendWr.sges, List.length_take]
    omega
  have hsum := List.sum_le_card_nsmul (wr.sges.map fun s => s.length.toNat) (2 ^ 32) (by
    intro n hn
    obtain ⟨s, -, rfl⟩ := List.mem_map.mp hn
    exact s.length.toNat_lt.le)
  rw [List.length_map, smul_eq_mul] at hsum
  exact hsum.trans (Nat.mul_le_mul_right _ hlen)

/-- The size of an accepted list fits the 64-bit counter of the limiter, because the send
queue has room for less than two gigabytes of gather entries. -/
theorem totalBytes_lt (hraw : qp.qpType ≠ .rawPacket) (hst : st.wqes = [])
    (h : wrs.foldlM (postOne qp sq) st = ok st') : totalBytes wrs < 2 ^ 64 := by
  obtain ⟨hlen, hroom, hgs⟩ := accepted_room h
  rw [hst, List.length_nil, Nat.zero_add] at hlen
  have hcount : wrs.length ≤ qp.maxPost.toNat := by
    apply le_maxPost_of_not_wqOverflow
    intro nreq hn
    exact hroom nreq (by simp [hst]) (hlen ▸ hn)
  have hsum := List.sum_le_card_nsmul (wrs.map SendWr.bytes) (qp.maxGs.toNat * 2 ^ 32) (by
    intro n hn
    obtain ⟨wr, hwr, rfl⟩ := List.mem_map.mp hn
    exact bytes_le (hgs wr hwr))
  rw [List.length_map, smul_eq_mul] at hsum
  have hgather := qp.gather_lt hraw
  calc totalBytes wrs ≤ wrs.length * (qp.maxGs.toNat * 2 ^ 32) := hsum
    _ ≤ qp.maxPost.toNat * (qp.maxGs.toNat * 2 ^ 32) := Nat.mul_le_mul_right _ hcount
    _ = qp.maxGs.toNat * qp.maxPost.toNat * 2 ^ 32 := by ring
    _ < 2 ^ 64 := by
      rw [Nat.mul_assoc] at hgather
      omega

/-- Requests that move the bytes of their entries, and nothing else. -/
def movesEntries (op : WrOpcode) : Bool :=
  op ∈ [.send, .sendWithImm, .sendWithInv, .rdmaWrite, .rdmaWriteWithImm, .rdmaRead]

/-- The limiter and the provider agree: when a whole list is accepted, the entries that
were built describe exactly the size that `ibv_post_send` waited for. -/
theorem accepted_size_eq_waited (buckets : PostSend.QpBuckets)
    (htype : qp.qpType = .rc ∨ qp.qpType = .uc ∨ qp.qpType = .xrcSend ∨
      qp.qpType = .ud ∧ qp.underlay = false)
    (hop : ∀ wr ∈ wrs, movesEntries wr.opcode) (h : mlx5PostSend qp sq wrs = some posted)
    (hacc : posted.failed = none) :
    payload posted.rung = sendSize wrs ∧
      PostSend.ibvPostSend .secondary buckets wrs =
        [.waitForRequestToken buckets.localBucketIndex,
          .waitForToken (payload posted.rung) buckets.bucketIndex, .postSend wrs] := by
  have hqp : qp.copiesHeader = false := by
    rcases htype with h | h | h | ⟨h, hu⟩ <;> simp [Qp.copiesHeader, *]
  have hraw : qp.qpType ≠ .rawPacket := by
    rcases htype with h | h | h | ⟨h, -⟩ <;> simp [h]
  have hplain : ∀ wr ∈ wrs, isAtomic wr.opcode = false := by
    intro wr hwr
    have hmoves := hop wr hwr
    cases hwr' : wr.opcode <;> simp [movesEntries, isAtomic, hwr'] at hmoves ⊢
  obtain ⟨done, st', hsplit, hfold, hrung⟩ := postLoop_accepted h
  obtain rfl : wrs = done := by simpa [Posted.refused, hacc] using hsplit
  have hsize : payload posted.rung = sendSize wrs := by
    rw [hrung, accepted_payload hqp hplain rfl hfold, payload_nil, Nat.zero_add, sendSize_eq,
      wrap_of_lt (totalBytes_lt hraw rfl hfold)]
  constructor
  · exact hsize
  · rw [PostSend.ibvPostSend, if_pos rfl, hsize]

/-- A device with descriptors of 512 bytes, and a connected queue pair for four requests. -/
def smallContext : Context := ⟨512, 32768, true, false, by decide, by decide⟩

def smallAttr : QpInitAttr where
  qpType := .rc
  maxSendWr := 4
  maxSendSge := 4
  maxInlineData := 64

def smallQp : Qp where
  wqeCnt := 32
  maxPost := 6
  maxGs := 4
  maxInlineData := 124
  qpType := .rc
  qpNum := 7
  atomicsEnabled := true
  underlay := false
  sqSigAll := false
  maxTsoHeader := 0
  ethMinInlineSize := 18
  gather_lt := by decide
  ethMinInlineSize_le := by decide

/-- From the last block of the queue: a write whose third gather entry is empty and whose
last one goes to the start of the queue, and an inline send. -/
def wrappingRequests : List SendWr :=
  [.ofSges [⟨0, 100, 1⟩, ⟨4096, 200, 1⟩, ⟨0, 0, 1⟩, ⟨8192, 300, 1⟩] .rdmaWrite {},
    .ofSges [⟨0, 10, 1⟩, ⟨64, 20, 1⟩] .send { inline := true }]

def atLastBlock : Sq := ⟨31, 31, 31, .none⟩

theorem accepted_size_eq_waited_wrapping :
    createQp smallContext smallAttr {} 7 = some smallQp ∧
      ∃ posted, mlx5PostSend smallQp atLastBlock wrappingRequests = some posted ∧
        posted.failed = none ∧ payload posted.rung = sendSize wrappingRequests ∧
          sendSize wrappingRequests = 630 := by
  have hany : (mlx5PostSend smallQp atLastBlock wrappingRequests).any (·.failed.isNone) := by
    decide +kernel
  obtain ⟨posted, hpost, hnone⟩ := (Option.any_eq_true _ _).mp hany
  have hacc : posted.failed = none := Option.isNone_iff_eq_none.mp hnone
  have hsize := accepted_size_eq_waited ⟨0, 0⟩ (Or.inl rfl) (by decide) hpost hacc
  constructor
  · decide +kernel
  · exact ⟨posted, hpost, hacc, hsize.1, by decide +kernel⟩

end List
end RdmaperfIso.Mlx5
