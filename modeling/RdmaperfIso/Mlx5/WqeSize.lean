import RdmaperfIso.Mlx5.PostSend

/-! How long a work queue entry can be. `create_qp` sizes the send queue for the longest entry
that it expects; here every entry that `_mlx5_post_send` builds is compared with that length,
segment by segment, and the queue is shown to hold as many entries as it admits requests. -/
namespace RdmaperfIso.Mlx5
open FixedWidth Outcome

variable {ctx : Context} {attr : QpInitAttr} {caps : Caps} {qpNum : UInt32} {qp : Qp} {wr : SendWr}
  {b b' : Build} {c c' : Cursor}

theorem Cursor.size_put {qend n : ℕ} {s : Segment} (hs : s.bytes = 16 * n)
    (h : c.put qend s = ok c') : c'.size = c.size + n := by
  simp only [put, bind_eq_ok, require_eq_ok, pure_eq_ok] at h
  obtain ⟨-, -, rfl⟩ := h
  show c.size + s.bytes / 16 = c.size + n
  omega

@[simp] theorem Cursor.size_wrap {qend : ℕ} : (c.wrap qend).size = c.size := by
  unfold wrap
  split_ifs <;> rfl

section Transport

theorem setBindWr_size {type : MwType} {info : BindInfo} {rkey : UInt32}
    (h : setBindWr type info qp rkey c = ok c') : c.size ≤ c'.size ∧ c'.size ≤ c.size + 11 := by
  have hctrl : (umrControlSeg type info).bytes = 48 := by
    simp only [umrControlSeg]
    split_ifs <;> rfl
  simp only [setBindWr, bind_eq_ok] at h
  obtain ⟨-, -, c₁, h₁, c₂, h₂, h⟩ := h
  have hsize₁ : c₁.size = c.size + 3 := Cursor.size_put hctrl h₁
  have hsize₂ : c₂.size = (c₁.wrap qp.qend).size + 4 := Cursor.size_put rfl h₂
  rw [Cursor.size_wrap] at hsize₂
  split_ifs at h
  · rw [pure_eq_ok] at h
    subst h
    omega
  · have hsize₃ : c'.size = c₂.size + 4 := Cursor.size_put rfl h
    omega

theorem rcSegs_size (h : rcSegs qp wr c = ok c') :
    c.size ≤ c'.size ∧ c'.size ≤ c.size + 11 := by
  unfold rcSegs at h
  split at h
  case h_1 | h_2 | h_3 =>
    have hsize : c'.size = c.size + 1 := Cursor.size_put rfl h
    omega
  case h_4 | h_5 =>
    simp only [bind_eq_ok] at h
    obtain ⟨-, -, c₁, h₁, h⟩ := h
    have hsize₁ : c₁.size = c.size + 1 := Cursor.size_put rfl h₁
    have hsize : c'.size = c₁.size + 1 := Cursor.size_put rfl h
    omega
  case h_6 | h_7 => exact setBindWr_size h
  case h_8 =>
    rw [pure_eq_ok] at h
    subst h
    omega

theorem xrcSegs_size (h : xrcSegs qp wr c = ok c') :
    c.size ≤ c'.size ∧ c'.size ≤ c.size + 1 := by
  unfold xrcSegs at h
  split_ifs at h
  · have hsize : c'.size = c.size + 1 := Cursor.size_put rfl h
    omega
  · rw [pure_eq_ok] at h
    subst h
    omega

theorem ucSegs_size (h : ucSegs qp wr c = ok c') :
    c.size ≤ c'.size ∧ c'.size ≤ c.size + 11 := by
  unfold ucSegs at h
  split at h
  case h_1 | h_2 =>
    have hsize : c'.size = c.size + 1 := Cursor.size_put rfl h
    omega
  case h_3 | h_4 => exact setBindWr_size h
  case h_5 =>
    rw [pure_eq_ok] at h
    subst h
    omega

theorem postSendUnderlay_size (h : postSendUnderlay qp wr b = ok b') :
    b'.cur.size = b.cur.size + 3 := by
  simp only [postSendUnderlay, bind_eq_ok] at h
  obtain ⟨-, -, c₁, h₁, -, -, h⟩ := h
  split at h
  next => cases h
  next =>
    simp only [bind_eq_ok, pure_eq_ok] at h
    obtain ⟨-, -, c₂, h₂, rfl⟩ := h
    have hsize₁ : c₁.size = b.cur.size + 1 := Cursor.size_put rfl h₁
    have hsize₂ : c₂.size = c₁.size + 2 := Cursor.size_put rfl h₂
    show c₂.size = _
    omega

/-- Without room for a TSO header, raw packets have the plain Ethernet segment. -/
theorem ethSegs_size (htso : qp.maxTsoHeader = 0) (h : ethSegs qp wr b = ok b') :
    b.cur.size ≤ b'.cur.size ∧ b'.cur.size ≤ b.cur.size + 2 := by
  simp only [ethSegs, bind_eq_ok] at h
  obtain ⟨-, -, -, -, h⟩ := h
  split at h <;> simp only [bind_eq_ok, pure_eq_ok] at h
  next =>
    obtain ⟨c, hc, -⟩ := h
    simp only [setTsoEthSeg, bind_eq_ok, check_eq_ok] at hc
    obtain ⟨-, hcheck, -⟩ := hc
    omega
  next =>
    obtain ⟨ptr, -, c, hc, rfl⟩ := h
    have hle := qp.ethMinInlineSize_le
    have hsize : c.size = b.cur.size + (16 + qp.ethMinInlineSize) / 16 :=
      Cursor.size_put (mul_comm _ _) hc
    show b.cur.size ≤ c.size ∧ c.size ≤ _
    omega

/-- The longest segments before the data, in units of 16 bytes. -/
def Qp.fixedSize (qp : Qp) : ℕ :=
  match qp.qpType with
  | .rc | .uc => 12
  | .xrcSend => 13
  | .ud => if qp.underlay then 7 else 4
  | .rawPacket => 3
  | .xrcRecv | .driver => 1

theorem transportSegs_size (htso : qp.maxTsoHeader = 0) (hb : b.cur.size = 1)
    (h : transportSegs qp wr b = ok b') : 0 < b'.cur.size ∧ b'.cur.size ≤ qp.fixedSize := by
  unfold transportSegs at h
  unfold Qp.fixedSize
  split at h
  case h_1 hty =>
    simp only [bind_eq_ok, pure_eq_ok] at h
    obtain ⟨c₁, h₁, c₂, h₂, rfl⟩ := h
    have hsize₁ := xrcSegs_size h₁
    have hsize₂ := rcSegs_size h₂
    simp only [hty]
    omega
  case h_2 hty =>
    simp only [bind_eq_ok, pure_eq_ok] at h
    obtain ⟨c, hc, rfl⟩ := h
    have hsize := rcSegs_size hc
    simp only [hty]
    omega
  case h_3 hty =>
    simp only [bind_eq_ok, pure_eq_ok] at h
    obtain ⟨c, hc, rfl⟩ := h
    have hsize := ucSegs_size hc
    simp only [hty]
    omega
  case h_4 hty =>
    simp only [bind_eq_ok] at h
    obtain ⟨c, hc, h⟩ := h
    have hsize : c.size = b.cur.size + 3 := Cursor.size_put rfl hc
    simp only [hty]
    split_ifs at h ⊢
    · have hunder := postSendUnderlay_size h
      rw [Cursor.size_wrap] at hunder
      omega
    · rw [pure_eq_ok] at h
      rw [← h]
      simp only [Cursor.size_wrap]
      omega
  case h_5 hty =>
    have hsize := ethSegs_size htso h
    simp only [hty]
    omega
  case h_6 hty | h_7 hty =>
    rw [pure_eq_ok] at h
    subst h
    simp only [hty]
    omega

/-- `sq_overhead` counts these segments, when the queue pair names no operations of its own. -/
theorem fixedSize_le_sqOverhead {overhead : ℕ} (hover : sqOverhead attr = some overhead)
    (hops : attr.sendOps = none) (hty : qp.qpType = attr.qpType)
    (hunder : qp.underlay = attr.sourceQpn) :
    16 * qp.fixedSize ≤ overhead ∧ 16 ∣ overhead := by
  unfold sqOverhead at hover
  simp only [hops, Option.getD_none, ← hty, ← hunder] at hover
  unfold Qp.fixedSize
  cases hqp : qp.qpType <;> cases hu : qp.underlay <;> cases humr : attr.umrOps <;>
    simp [hqp, hu, humr, QpType.defaultOps] at hover ⊢ <;> omega

end Transport

section Data
variable {r r' : InlineCopy} {s : Sge} {sges : List Sge} {op : WrOpcode}

/-- No copy is longer than the inline data that a request may have. -/
theorem copyOne_inl_le (hr : 0 ≤ r.inl) (h : copyOne qp r s = ok r') :
    0 ≤ r'.inl ∧ r'.inl ≤ qp.maxInlineData := by
  simp only [copyOne, bind_eq_ok, require_eq_ok, check_eq_ok] at h
  obtain ⟨-, -, -, hmax, h⟩ := h
  split_ifs at h with hwrap
  · simp only [bind_eq_ok, require_eq_ok, pure_eq_ok] at h
    obtain ⟨-, ⟨hwqe, -⟩, rfl⟩ := h
    exact ⟨by dsimp only; omega, hmax⟩
  · simp only [bind_eq_ok, require_eq_ok, pure_eq_ok] at h
    obtain ⟨-, h0, rfl⟩ := h
    exact ⟨by dsimp only; omega, hmax⟩

theorem copy_inl_le (hr : 0 ≤ r.inl) (hmax : r.inl = 0 ∨ r.inl ≤ qp.maxInlineData)
    (h : sges.foldlM (copyOne qp) r = ok r') :
    0 ≤ r'.inl ∧ (r'.inl = 0 ∨ r'.inl ≤ qp.maxInlineData) := by
  induction sges generalizing r with
  | nil =>
    rw [foldlM_nil_eq_ok] at h
    exact h ▸ ⟨hr, hmax⟩
  | cons s sges ih =>
    obtain ⟨r₁, h₁, h⟩ := foldlM_cons_eq_ok.mp h
    obtain ⟨hlow, hhigh⟩ := copyOne_inl_le hr h₁
    exact ih hlow (.inr hhigh) h

theorem gatherOne_size (h : gatherOne qp op b s = ok b') :
    b.cur.size ≤ b'.cur.size ∧ b'.cur.size ≤ b.cur.size + 1 := by
  have hput {c : Cursor} {byteCount lkey : UInt32} {addr : UInt64}
      (hc : (b.cur.wrap qp.qend).put qp.qend (.data byteCount lkey addr) = ok c) :
      c.size = b.cur.size + 1 := by
    have hsize : c.size = (b.cur.wrap qp.qend).size + 1 := Cursor.size_put rfl hc
    rwa [Cursor.size_wrap] at hsize
  unfold gatherOne at h
  simp only at h
  split at h
  · rw [pure_eq_ok] at h
    rw [← h, Cursor.size_wrap]
    omega
  split at h
  · simp only [bind_eq_ok, pure_eq_ok] at h
    obtain ⟨c, hc, rfl⟩ := h
    have hsize := hput hc
    dsimp only
    omega
  · simp only [bind_eq_ok, pure_eq_ok] at h
    obtain ⟨-, -, c, hc, rfl⟩ := h
    have hsize := hput hc
    dsimp only
    omega

theorem gather_size (h : sges.foldlM (gatherOne qp op) b = ok b') :
    b.cur.size ≤ b'.cur.size ∧ b'.cur.size ≤ b.cur.size + sges.length := by
  induction sges generalizing b with
  | nil =>
    rw [foldlM_nil_eq_ok] at h
    simp [h]
  | cons s sges ih =>
    obtain ⟨b₁, h₁, h⟩ := foldlM_cons_eq_ok.mp h
    have hone := gatherOne_size h₁
    have hrest := ih h
    rw [List.length_cons]
    omega

/-- The data take a segment for every entry, or one for the inline bytes. -/
theorem dataSegs_size (h : dataSegs qp wr b = ok b') :
    b.cur.size ≤ b'.cur.size ∧
      (b'.cur.size ≤ b.cur.size + wr.numSge.toNat ∨
        ∃ n : ℕ, (n : ℤ) ≤ qp.maxInlineData ∧ b'.cur.size ≤ b.cur.size + (n + 4 + 15) / 16) := by
  unfold dataSegs at h
  simp only at h
  split_ifs at h
  · simp only [setDataInlSeg, bind_eq_ok] at h
    obtain ⟨r, hr, h⟩ := h
    obtain ⟨hlow, hhigh⟩ := copy_inl_le le_rfl (.inl rfl) hr
    split_ifs at h with hzero
    · rw [pure_eq_ok] at h
      subst h
      exact ⟨le_rfl, .inl (Nat.le_add_right _ _)⟩
    · rw [pure_eq_ok] at h
      subst h
      refine ⟨Nat.le_add_right _ _, .inr ⟨r.inl.toNat, by omega, ?_⟩⟩
      simp only [Cursor.addInline, Segment.bytes]
      omega
  · have hsize := gather_size h
    have hlen : (wr.sges.drop b.ptr.index).length ≤ wr.numSge.toNat := by
      rw [List.length_drop, SendWr.sges, List.length_take]
      omega
    omega

end Data

section Sizing
variable {s : SqSize} {overhead : ℕ} {wqeSize : ℤ} {st st' : PostState} {opcode : ℕ}

/-- The descriptor size is a number of blocks, with room for the segments before the data and
for all gather entries. -/
theorem calcSendWqe_room (htso : attr.maxTsoHeader = none) (hover : sqOverhead attr = some overhead)
    (h : calcSendWqe ctx attr = some wqeSize) :
    64 ∣ wqeSize ∧ overhead + 16 * (attr.maxSendSge.toNat : ℤ) ≤ wqeSize := by
  obtain ⟨hsge, -⟩ := calcSendWqe_gather htso h
  obtain ⟨hlow, hhigh⟩ := sqOverhead_le hover
  have hfixed := ctx.fixed_le
  have hdesc := ctx.maxSqDescSz.toNat_lt
  simp only [calcSendWqe, htso, hover, Option.bind_eq_bind, Option.bind_some] at h
  split_ifs at h with hgather htot
  obtain rfl := Option.some.inj h
  rw [wrapSub_of_le (by omega) (by omega), wrap_of_lt (by omega)] at hgather
  have hsum : toSigned 32 (overhead + attr.maxSendSge.toNat * 16 : ℕ) =
      (overhead + attr.maxSendSge.toNat * 16 : ℕ) := toSigned_of_lt (by omega) (by norm_num)
  refine ⟨Dvd.intro_left _ rfl, le_trans ?_ (le_align _ (by norm_num))⟩
  refine le_trans ?_ (le_max_left _ _)
  rw [hsum]
  push_cast
  omega

theorem toNat_ofInt_of_lt {n : ℕ} (h : n < 2 ^ 32) : (UInt32.ofInt n).toNat = n := by
  have heq : (UInt32.ofInt n).toNat = n % 2 ^ 32 := by
    simp [UInt32.ofInt]
    omega
  rw [heq, Nat.mod_eq_of_lt h]

/-- The bytes of the queue are a power of two that is an `int`: the next one would be a negative
`int`, whose number of blocks is above what the device has. -/
theorem calcSqSize_bytes (htso : attr.maxTsoHeader = none) (hwr : attr.maxSendWr ≠ 0)
    (hwqe : calcSendWqe ctx attr = some wqeSize) (h : calcSqSize ctx attr = some s) :
    s.wqeCnt ≤ ctx.maxSendWqebb ∧ ∃ k < 31, wqeSize.toNat ≤ 2 ^ k ∧
      s.wqeCnt = UInt32.ofInt ((2 ^ k : ℕ) / 64 : ℕ) ∧
      s.maxPost = UInt32.ofInt ((2 ^ k : ℕ) / wqeSize.toNat : ℕ) ∧
      s.maxGs = toSigned 32 attr.maxSendSge.toNat := by
  obtain ⟨-, hpos⟩ := calcSendWqe_gather htso hwqe
  have hn : 0 < attr.maxSendWr.toNat :=
    Nat.pos_of_ne_zero fun h0 => hwr (UInt32.toNat_inj.mp h0)
  have hdesc := ctx.fixed_le
  simp only [calcSqSize, if_neg hwr, hwqe, Option.bind_eq_bind, Option.bind_eq_some_iff] at h
  obtain ⟨overhead, -, _, hsome, h⟩ := h
  obtain rfl := Option.some.inj hsome
  split_ifs at h with hsize hmax hcnt
  obtain rfl := Option.some.inj h
  obtain ⟨wqe, rfl⟩ := Int.eq_ofNat_of_zero_le (by omega : 0 ≤ wqeSize)
  rw [Int.toNat_natCast] at hcnt ⊢
  have hprod : attr.maxSendWr.toNat * wqe ≤ 2 ^ 31 := by
    calc attr.maxSendWr.toNat * wqe
        ≤ (0x7fffffff / ctx.maxSqDescSz.toNat) * ctx.maxSqDescSz.toNat :=
          Nat.mul_le_mul (by omega) (by omega)
      _ ≤ 0x7fffffff := Nat.div_mul_le_self _ _
      _ ≤ 2 ^ 31 := by norm_num
  have hle := roundupPowOfTwo_le (Nat.mul_pos hn (by omega)) hprod
  have hge := le_roundupPowOfTwo (n := attr.maxSendWr.toNat * wqe) (Nat.mul_pos hn (by omega))
  obtain ⟨k, hk⟩ := roundupPowOfTwo_eq (attr.maxSendWr.toNat * wqe)
  rw [hk] at hle hge hcnt ⊢
  have hk31 : k ≤ 31 := (Nat.pow_le_pow_iff_right (by norm_num)).mp hle
  rcases hk31.lt_or_eq with hlt | rfl
  · have hbytes : toSigned 32 (2 ^ k : ℕ) = (2 ^ k : ℕ) :=
      toSigned_of_lt (Nat.pow_lt_pow_right (by norm_num) hlt) (by norm_num)
    rw [hbytes] at hcnt ⊢
    refine ⟨UInt32.not_lt.mp hcnt, k, hlt, (Nat.le_mul_of_pos_left wqe hn).trans hge, ?_, ?_, ?_⟩
    · rw [Int.ofNat_tdiv, Nat.cast_ofNat]
    · rw [Int.ofNat_tdiv]
    · dsimp only
  · have hwqebb := ctx.wqebb_lt
    have hbig : (UInt32.ofInt ((toSigned 32 (2 ^ 31 : ℕ)).tdiv 64)).toNat = 2 ^ 32 - 2 ^ 25 := by
      decide
    rw [UInt32.lt_iff_toNat_lt, hbig] at hcnt
    omega

/-- The number of blocks is a power of two, and as many descriptors fit in as requests. -/
theorem calcSqSize_room (htso : attr.maxTsoHeader = none) (hwr : attr.maxSendWr ≠ 0)
    (hover : sqOverhead attr = some overhead) (hwqe : calcSendWqe ctx attr = some wqeSize)
    (h : calcSqSize ctx attr = some s) :
    s.wqeCnt ≤ ctx.maxSendWqebb ∧ s.maxGs = attr.maxSendSge.toNat ∧
      (∃ k, s.wqeCnt.toNat = 2 ^ k) ∧ s.maxPost.toNat * (wqeSize.toNat / 64) ≤ s.wqeCnt.toNat := by
  obtain ⟨hsge, hpos⟩ := calcSendWqe_gather htso hwqe
  obtain ⟨hdvd, -⟩ := calcSendWqe_room htso hover hwqe
  obtain ⟨hcnt, k, hk, hbytes, hcnt', hpost, hgs⟩ := calcSqSize_bytes htso hwr hwqe h
  obtain ⟨m, hm⟩ : ∃ m, wqeSize.toNat = 64 * m := ⟨wqeSize.toNat / 64, by omega⟩
  have hlt : 2 ^ k < 2 ^ 31 := Nat.pow_lt_pow_right (by norm_num) hk
  have hk6 : 6 ≤ k := by
    by_contra hlt
    have := Nat.pow_le_pow_right (show 0 < 2 by norm_num) (show k ≤ 5 by omega)
    omega
  refine ⟨hcnt, hgs.trans (toSigned_of_lt hsge (by norm_num)), ⟨k - 6, ?_⟩, ?_⟩
  · rw [hcnt', toNat_ofInt_of_lt (by omega)]
    exact Nat.pow_div hk6 (by norm_num)
  · rw [hcnt', toNat_ofInt_of_lt (show 2 ^ k / 64 < 2 ^ 32 by omega), hpost, hm,
      Nat.mul_div_cancel_left m (by norm_num)]
    calc (UInt32.ofInt ((2 ^ k : ℕ) / (64 * m) : ℕ)).toNat * m
        ≤ 2 ^ k / (64 * m) * m := Nat.mul_le_mul_right m (toNat_ofInt_le _)
      _ = 2 ^ k / 64 / m * m := by rw [Nat.div_div_eq_div_mul]
      _ ≤ 2 ^ k / 64 := Nat.div_mul_le_self _ _

/-- What the sizes of a send queue say about each other, and about the entries in it. -/
structure Fits (qp : Qp) (room : ℕ) : Prop where
  cnt_eq : ∃ k, qp.wqeCnt.toNat = 2 ^ k
  posts_le : qp.maxPost.toNat * room ≤ qp.wqeCnt.toNat
  wqe_le : ∀ st wr opcode st', wr.numSge ≤ qp.maxGs → buildWqe qp st wr opcode = ok st' →
    ∃ segs ds, st'.wqes = st.wqes ++ [⟨ctrlSeg qp st wr opcode ds, segs⟩] ∧
      st'.curPost = st.curPost + wqebbs ds ∧ 0 < ds ∧ 16 * ds ≤ 64 * room

theorem createQp_eq (h : createQp ctx attr caps qpNum = some qp) :
    calcSqSize ctx attr = some qp.toSqSize ∧ qp.qpType = attr.qpType ∧
      qp.underlay = attr.sourceQpn ∧ (attr.maxTsoHeader = none → qp.maxTsoHeader = 0) ∧
      qp.qpNum = qpNum := by
  unfold createQp at h
  split at h
  · cases h
  split at h
  · cases h
  split at h
  · cases h
  next hs =>
    obtain rfl := Option.some.inj h
    exact ⟨hs, rfl, rfl, fun htso => by simp [htso], rfl⟩

/-- Every entry that a queue pair builds is as long as `create_qp` expected at most. -/
theorem createQp_fits (h : createQp ctx attr caps qpNum = some qp) (hops : attr.sendOps = none)
    (htso : attr.maxTsoHeader = none) (hwr : attr.maxSendWr ≠ 0) :
    qp.wqeCnt ≤ ctx.maxSendWqebb ∧ ∃ room, Fits qp room := by
  obtain ⟨hsize, hty, hunder, hzero, -⟩ := createQp_eq h
  obtain ⟨overhead, hover, wqeSize, hwqe, hinl⟩ : ∃ overhead, sqOverhead attr = some overhead ∧
      ∃ wqeSize, calcSendWqe ctx attr = some wqeSize ∧
        qp.maxInlineData = wqeSize - overhead - 4 := by
    have hs := hsize
    simp only [calcSqSize, if_neg hwr, Option.bind_eq_bind, Option.bind_eq_some_iff] at hs
    obtain ⟨overhead, hover, wqeSize, hwqe, hs⟩ := hs
    split_ifs at hs
    exact ⟨overhead, hover, wqeSize, hwqe, congrArg SqSize.maxInlineData (Option.some.inj hs).symm⟩
  obtain ⟨hcnt, hgs, hpow, hpost⟩ := calcSqSize_room htso hwr hover hwqe hsize
  obtain ⟨hdvd, hroom⟩ := calcSendWqe_room htso hover hwqe
  obtain ⟨hfixed, hdvd16⟩ := fixedSize_le_sqOverhead hover hops hty hunder
  refine ⟨hcnt, wqeSize.toNat / 64, hpow, hpost, fun st wr opcode st' hsge hbuild => ?_⟩
  simp only [buildWqe, bind_eq_ok, require_eq_ok, pure_eq_ok] at hbuild
  obtain ⟨-, -, b, hb, b', hb', rfl⟩ := hbuild
  have hfront := transportSegs_size (hzero htso) rfl hb
  have hdata := dataSegs_size hb'
  refine ⟨_, _, rfl, rfl, by omega, ?_⟩
  rcases hdata.2 with hgather | ⟨n, hn, hinline⟩
  · omega
  · omega

end Sizing
end RdmaperfIso.Mlx5
