import RdmaperfIso.Mlx5.CompletionQueue

/-! Work completions, which the driver makes from the entries of a completion queue, and the copy
of data that comes with an entry. -/
namespace RdmaperfIso.Mlx5

inductive WcOpcode where
  | send | rdmaWrite | rdmaRead | compSwap | fetchAdd | bindMw | localInv | tso | recv
  | recvRdmaWithImm | other
  deriving DecidableEq, Repr

inductive WcStatus where
  | success | locLenErr | locQpOpErr | locProtErr | wrFlushErr | mwBindErr | badRespErr
  | locAccessErr | remInvReqErr | remAccessErr | remOpErr | retryExcErr | rnrRetryExcErr
  | remAbortErr | generalErr
  deriving DecidableEq, Repr

/-- A work completion; `none` is a field that is not set. The immediate and the key that was
invalidated share their place. -/
structure Wc where
  qpNum : UInt32
  wrId : UInt64
  status : WcStatus
  opcode : Option WcOpcode := none
  vendorErr : Option UInt8 := none
  byteLen : Option UInt32 := none
  withImm : Bool := false
  withInv : Bool := false
  immInval : Option UInt32 := none
  deriving DecidableEq, Repr

/-- `mlx5_handle_error_cqe`. -/
def handleErrorCqe (syndrome : UInt8) : WcStatus :=
  match syndrome.toNat with
  | 0x01 => .locLenErr
  | 0x02 => .locQpOpErr
  | 0x04 => .locProtErr
  | 0x05 => .wrFlushErr
  | 0x06 => .mwBindErr
  | 0x10 => .badRespErr
  | 0x11 => .locAccessErr
  | 0x12 => .remInvReqErr
  | 0x13 => .remAccessErr
  | 0x14 => .remOpErr
  | 0x15 => .retryExcErr
  | 0x16 => .rnrRetryExcErr
  | 0x22 => .remAbortErr
  | _ => .generalErr

/-- `copy_to_scat`: the status, and the bytes that are left. The list has the lengths of the
scatter entries, and `none` for memory that is not one. -/
def copyToScat : (size : ℕ) → (scat : List (Option ℕ)) → Option (WcStatus × ℕ)
  | 0, _ => some (.success, 0)
  | size + 1, [] => some (.locLenErr, size + 1)
  | _ + 1, none :: _ => none
  | size + 1, some n :: scat => copyToScat (size + 1 - n) scat

/-- The bytes that a scatter list takes. -/
def scatRoom : List (Option ℕ) → ℕ
  | some n :: scat => n + scatRoom scat
  | _ => 0

theorem copyToScat_of_le {size : ℕ} {scat : List (Option ℕ)} (h : size ≤ scatRoom scat) :
    copyToScat size scat = some (.success, 0) := by
  induction scat generalizing size with
  | nil =>
    obtain rfl := Nat.le_zero.mp h
    rfl
  | cons x scat ih =>
    cases size with
    | zero => rfl
    | succ size =>
      cases x with
      | none => cases h
      | some n =>
        rw [scatRoom] at h
        exact ih (by omega)

/-- A list can be copied to in two parts. -/
theorem copyToScat_append (size : ℕ) (xs ys : List (Option ℕ)) :
    copyToScat size (xs ++ ys) =
      (copyToScat size xs).bind fun r =>
        if r.1 = .success then some r else copyToScat r.2 ys := by
  induction xs generalizing size with
  | nil =>
    cases size with
    | zero => cases ys <;> rfl
    | succ size => rfl
  | cons x xs ih =>
    cases size with
    | zero => rfl
    | succ size =>
      cases x with
      | none => rfl
      | some n => exact ih _

end RdmaperfIso.Mlx5
