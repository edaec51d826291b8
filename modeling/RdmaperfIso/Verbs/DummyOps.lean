import Mathlib.Data.List.Induction
import RdmaperfIso.Lib.TailCalls

/-! The table of operations of a verbs context: the dummy functions it starts with, and the
functions that a provider puts in their places. -/
namespace RdmaperfIso.DummyOps
open TailCalls

/-- The members of `struct verbs_context_ops`. -/
inductive Op where
  | adviseMr | allocDm | allocMw | allocNullMr | allocParentDomain | allocPd | allocTd
  | asyncEvent | attachCountersPointFlow | attachMcast | bindMw | closeXrcd | cqEvent | createAh
  | createCounters | createCq | createCqEx | createFlow | createFlowActionEsp | createQp
  | createQpEx | createRwqIndTable | createSrq | createSrqEx | createWq | deallocMw | deallocPd
  | deallocTd | deregMr | destroyAh | destroyCounters | destroyCq | destroyFlow
  | destroyFlowAction | destroyQp | destroyRwqIndTable | destroySrq | destroyWq | detachMcast
  | freeContext | freeDm | getSrqNum | modifyCq | modifyFlowActionEsp | modifyQp
  | modifyQpRateLimit | modifySrq | modifyWq | openQp | openXrcd | pollCq | postRecv | postSend
  | postSrqOps | postSrqRecv | queryDevice | queryDeviceEx | queryEce | queryPort | queryQp
  | queryRtValues | querySrq | readCounters | regDmMr | regMr | reqNotifyCq | reregMr | resizeCq
  | setEce | getWqeCnt
  deriving DecidableEq, Repr

/-- What the functions look at: the object of the call and, for `query_device_ex`, the
`comp_mask` of the input, none for a null pointer, and the size of the attributes. -/
structure Args where
  object : ℕ
  input : Option UInt32
  attrSize : ℕ

/-- The value of a function, none for a `void` one and 0 for a null pointer, and what it stores
in `errno`. -/
structure Answer where
  value : Option ℤ
  errno : Option ℤ
  deriving DecidableEq, Repr

def einval : ℤ := 22

def eopnotsupp : ℤ := 95

def reregMrErrInput : ℤ := -1

/-- The size of `struct ibv_device_attr`. -/
def sizeofDeviceAttr : ℕ := 232

/-- A function of a provider, or the one that a name stands for in `dummy_ops.c`. -/
inductive Func where
  | provider (f : Args → Answer)
  | named (op : Op)

abbrev OpTable := Op → Option Func

/-- `priv->ops`, the entries of the context itself, and its compatibility entries. -/
structure VerbsContext where
  priv : OpTable
  ops : OpTable
  compat : OpTable

/-- Where `verbs_set_ops` stores a member besides `priv->ops`. -/
inductive Placement where
  | entry
  | compat
  | privOnly
  deriving DecidableEq, Repr

/-- `SET_PRIV_OP` has a compatibility entry, `SET_PRIV_OP_IC` has none, and `SET_OP` and
`SET_OP2` set the entry that applications use. -/
def placement : Op → Placement
  | .allocPd | .asyncEvent | .attachMcast | .cqEvent | .createAh | .createCq | .createQp
  | .createSrq | .deallocPd | .deregMr | .destroyAh | .destroyCq | .destroyQp | .destroySrq
  | .detachMcast | .modifyQp | .modifySrq | .queryDevice | .queryQp | .querySrq | .regMr
  | .reregMr | .resizeCq => .compat
  | .createCqEx | .freeContext | .queryEce | .queryPort | .setEce => .privOnly
  | _ => .entry

/-- A member that is null leaves the entries as they are. -/
def verbsSetOps (vctx : VerbsContext) (ops : OpTable) : VerbsContext where
  priv op := (ops op).or (vctx.priv op)
  ops op := if placement op = .entry then (ops op).or (vctx.ops op) else vctx.ops op
  compat op := if placement op = .compat then (ops op).or (vctx.compat op) else vctx.compat op

/-- The positional initialisers name one function each. -/
def verbsDummyOps : OpTable := fun op => some (.named op)

/-- The private part comes from `calloc`, which may fail. -/
def verbsInitContext (vctx : VerbsContext) (calloc : Bool) : Option VerbsContext :=
  if calloc then some (verbsSetOps { vctx with priv := fun _ => none } verbsDummyOps) else none

/-- The dummies that do not look at the context. -/
def dummyAnswer : Op → Answer
  | .allocDm | .allocMw | .allocNullMr | .allocParentDomain | .allocPd | .allocTd | .createAh
  | .createCounters | .createCq | .createCqEx | .createFlow | .createFlowActionEsp | .createQp
  | .createQpEx | .createRwqIndTable | .createSrq | .createSrqEx | .createWq | .openQp
  | .openXrcd | .regDmMr | .regMr => ⟨some 0, some eopnotsupp⟩
  | .asyncEvent | .cqEvent | .freeContext => ⟨none, none⟩
  | .reregMr => ⟨some reregMrErrInput, some eopnotsupp⟩
  | _ => ⟨some eopnotsupp, none⟩

/-- The call that a function ends in, through the pointer in a slot. -/
def through (slot : Option Func) (a : Args) : Body (Func × Args) Answer :=
  match slot with
  | some fn => .call (fn, a)
  | none => .undefined

/-- `dummy_ops.c` defines no `get_wqe_cnt`: there the name is the inline function of `verbs.h`,
which applications call too and which goes through the entry of the context.
`query_device_ex` ends in `ibv_query_device`, which goes through `priv->ops`. -/
def body (vctx : VerbsContext) : Func × Args → Body (Func × Args) Answer
  | (.provider f, a) => .answer (f a)
  | (.named .getWqeCnt, a) => through (vctx.ops .getWqeCnt) a
  | (.named .queryDeviceEx, a) =>
    if a.input.any (· ≠ 0) then .answer ⟨some einval, none⟩
    else if a.attrSize < sizeofDeviceAttr then .answer ⟨some eopnotsupp, none⟩
    else through (vctx.priv .queryDevice) ⟨a.object, none, 0⟩
  | (.named op, _) => .answer (dummyAnswer op)

/-- The members that a provider has set in a table of its own. -/
abbrev ProviderOps := Op → Option (Args → Answer)

/-- `verbs_set_ops` with each table in turn. -/
def setProviderOps (vctx : VerbsContext) (tables : List ProviderOps) : VerbsContext :=
  tables.foldl (fun vctx table => verbsSetOps vctx fun op => (table op).map .provider) vctx

/-- The function that the last table with that member has supplied. -/
def supplied (tables : List ProviderOps) (op : Op) : Option (Args → Answer) :=
  (tables.filterMap (· op)).getLast?

/-- The provider's function where there is one, and otherwise the dummy. -/
def installed (tables : List ProviderOps) (op : Op) : Func :=
  match supplied tables op with
  | some f => .provider f
  | none => .named op

section Tables
variable {tables : List ProviderOps} {before vctx : VerbsContext} {calloc : Bool} {op : Op}

theorem supplied_isSome_iff :
    (supplied tables op).isSome ↔ ∃ table ∈ tables, (table op).isSome := by
  rw [Option.isSome_iff_ne_none, supplied, ne_eq, List.getLast?_eq_none_iff,
    List.filterMap_eq_nil_iff]
  simp only [not_forall, Option.isSome_iff_ne_none, exists_prop, ne_eq]

theorem supplied_append (table : ProviderOps) :
    supplied (tables ++ [table]) op = (table op).or (supplied tables op) := by
  cases h : table op <;> simp [supplied, h]

theorem setProviderOps_append (table : ProviderOps) :
    setProviderOps vctx (tables ++ [table]) =
      verbsSetOps (setProviderOps vctx tables) fun op => (table op).map .provider := by
  rw [setProviderOps, List.foldl_append]
  rfl

/-- An entry that each `verbs_set_ops` overrides holds the last function that was supplied. -/
theorem setProviderOps_slot (slot : VerbsContext → Option Func)
    (hslot : ∀ vctx ops, slot (verbsSetOps vctx ops) = (ops op).or (slot vctx))
    (hdummy : slot vctx = some (.named op)) (tables : List ProviderOps) :
    slot (setProviderOps vctx tables) = some (installed tables op) := by
  induction tables using List.reverseRecOn with
  | nil => exact hdummy
  | append_singleton tables table ih =>
    rw [setProviderOps_append, hslot, ih, installed, installed, supplied_append]
    cases table op with
    | none => rfl
    | some f => rfl

variable (hinit : verbsInitContext before calloc = some vctx)
include hinit

theorem verbsInitContext_eq :
    vctx = verbsSetOps { before with priv := fun _ => none } verbsDummyOps := by
  unfold verbsInitContext at hinit
  split_ifs at hinit
  exact (Option.some.inj hinit).symm

theorem setProviderOps_priv (tables : List ProviderOps) (op : Op) :
    (setProviderOps vctx tables).priv op = some (installed tables op) := by
  obtain rfl := verbsInitContext_eq hinit
  exact setProviderOps_slot (fun vctx => vctx.priv op) (fun _ _ => rfl) rfl tables

theorem setProviderOps_ops (tables : List ProviderOps) (hop : placement op = .entry) :
    (setProviderOps vctx tables).ops op = some (installed tables op) := by
  obtain rfl := verbsInitContext_eq hinit
  have hslot (vctx : VerbsContext) (ops : OpTable) :
      (verbsSetOps vctx ops).ops op = (ops op).or (vctx.ops op) := if_pos hop
  exact setProviderOps_slot (fun vctx => vctx.ops op) hslot (hslot _ _) tables

end Tables

section Dispatch
variable {tables : List ProviderOps} {before vctx : VerbsContext} {calloc : Bool} {op : Op}
  {fn gn : Func} {a b : Args}

theorem through_eq_call {slot : Option Func} (h : through slot a = .call (gn, b)) :
    slot = some gn := by
  cases slot with
  | none => exact nomatch h
  | some fn =>
    obtain ⟨rfl, -⟩ := Prod.mk.inj (Body.call.inj h)
    rfl

/-- The only two functions that call another one through the context. -/
theorem calls_cases (h : Calls (body vctx) (fn, a) (gn, b)) :
    (fn = .named .getWqeCnt ∧ vctx.ops .getWqeCnt = some gn) ∨
      (fn = .named .queryDeviceEx ∧ vctx.priv .queryDevice = some gn) := by
  unfold Calls body at h
  split at h
  case h_1 => exact nomatch h
  case h_2 fn a heq =>
    obtain ⟨rfl, -⟩ := Prod.mk.inj heq
    exact .inl ⟨rfl, through_eq_call h⟩
  case h_3 fn a heq =>
    obtain ⟨rfl, -⟩ := Prod.mk.inj heq
    split_ifs at h
    exact .inr ⟨rfl, through_eq_call h⟩
  case h_4 => exact nomatch h

/-- Calls go from the functions of rank 1 to those of rank 0. -/
def rank : Func → ℕ
  | .named .getWqeCnt => 1
  | .named .queryDeviceEx => 1
  | _ => 0

/-- The functions that stay clear of the inline `get_wqe_cnt` in the place of its own dummy. -/
def Sound (tables : List ProviderOps) (f : Func × Args) : Prop :=
  f.1 ≠ .named .getWqeCnt ∨ (supplied tables .getWqeCnt).isSome

theorem installed_of_supplied {f : Args → Answer} (h : supplied tables op = some f) :
    installed tables op = .provider f := by
  rw [installed, h]

theorem installed_of_none (h : supplied tables op = none) : installed tables op = .named op := by
  rw [installed, h]

theorem installed_queryDevice (tables : List ProviderOps) (a : Args) :
    Sound tables (installed tables .queryDevice, a) ∧
      rank (installed tables .queryDevice) = 0 := by
  cases h : supplied tables .queryDevice with
  | none =>
    rw [installed_of_none h]
    exact ⟨.inl (by simp), rfl⟩
  | some f =>
    rw [installed_of_supplied h]
    exact ⟨.inl (by simp), rfl⟩

variable (hinit : verbsInitContext before calloc = some vctx)
include hinit

/-- A sound function calls only sound functions, of lower rank. -/
theorem sound_calls (tables : List ProviderOps) (f g : Func × Args) (hf : Sound tables f)
    (h : Calls (body (setProviderOps vctx tables)) f g) :
    Sound tables g ∧ rank g.1 < rank f.1 := by
  obtain ⟨fn, a⟩ := f
  obtain ⟨gn, b⟩ := g
  rcases calls_cases h with ⟨rfl, hslot⟩ | ⟨rfl, hslot⟩
  · obtain ⟨p, hp⟩ := Option.isSome_iff_exists.mp (hf.resolve_left (not_not_intro rfl))
    rw [setProviderOps_ops hinit tables rfl, installed_of_supplied hp] at hslot
    obtain rfl := Option.some.inj hslot
    exact ⟨.inl (by simp), Nat.zero_lt_one⟩
  · rw [setProviderOps_priv hinit tables .queryDevice] at hslot
    obtain rfl := Option.some.inj hslot
    obtain ⟨hsound, hrank⟩ := installed_queryDevice tables b
    exact ⟨hsound, hrank ▸ Nat.zero_lt_one⟩

theorem body_ne_undefined (tables : List ProviderOps) (f : Func × Args) :
    body (setProviderOps vctx tables) f ≠ .undefined := by
  unfold body
  split
  · exact nofun
  · rw [setProviderOps_ops hinit tables rfl]
    exact nofun
  · rw [setProviderOps_priv hinit tables]
    split_ifs <;> exact nofun
  · exact nofun

theorem calls_getWqeCnt (tables : List ProviderOps) (a : Args) :
    Calls (body (setProviderOps vctx tables)) (.named .getWqeCnt, a)
      (installed tables .getWqeCnt, a) := by
  change through ((setProviderOps vctx tables).ops .getWqeCnt) a = _
  rw [setProviderOps_ops hinit tables rfl]
  rfl

theorem exec_getWqeCnt_of_none (hnone : supplied tables .getWqeCnt = none) (fuel : ℕ) (a : Args) :
    exec (body (setProviderOps vctx tables)) fuel (.named .getWqeCnt, a) = none := by
  have hself := calls_getWqeCnt hinit tables a
  rw [installed_of_none hnone] at hself
  exact exec_eq_none_of_self hself fuel

/-- Every operation of the context comes back, save `get_wqe_cnt` when no provider has
supplied one. -/
theorem exists_returns_iff (tables : List ProviderOps) (op : Op) (a : Args) :
    (∃ r, Returns (body (setProviderOps vctx tables)) (installed tables op, a) r) ↔
      op ≠ .getWqeCnt ∨ (supplied tables .getWqeCnt).isSome := by
  constructor
  · rintro ⟨r, fuel, hr⟩
    by_contra hnone
    simp only [not_or, not_not, Option.not_isSome_iff_eq_none] at hnone
    obtain ⟨rfl, hnone⟩ := hnone
    rw [installed_of_none hnone, exec_getWqeCnt_of_none hinit hnone] at hr
    exact nomatch hr
  · intro h
    refine exists_returns_of_rank (sound_calls hinit tables)
      (fun f _ => body_ne_undefined hinit tables f) ?_
    cases hs : supplied tables op with
    | none =>
      rw [installed_of_none hs]
      exact h.imp_left fun hop heq => hop (Func.named.inj heq)
    | some f =>
      rw [installed_of_supplied hs]
      exact .inl (by simp)

end Dispatch

/-- The answer that `get_wqe_cnt` should give: the last supplied function's, or the error that
the dummies return. -/
def promised (tables : List ProviderOps) (a : Args) : Answer :=
  match supplied tables .getWqeCnt with
  | some f => f a
  | none => ⟨some eopnotsupp, none⟩

/-- `get_wqe_cnt` comes back with its answer, and no dummy reaches itself through the context. -/
structure Grounded (vctx : VerbsContext) (tables : List ProviderOps) : Prop where
  answers : ∀ a, Returns (body vctx) (.named .getWqeCnt, a) (promised tables a)
  acyclic : ∀ op a b, ¬ Relation.TransGen (Calls (body vctx)) (.named op, a) (.named op, b)

/-- The dummies are well founded exactly when a provider has supplied `get_wqe_cnt`. -/
theorem grounded_iff {before vctx : VerbsContext} {calloc : Bool}
    (hinit : verbsInitContext before calloc = some vctx) (tables : List ProviderOps) :
    Grounded (setProviderOps vctx tables) tables ↔
      ∃ table ∈ tables, (table .getWqeCnt).isSome := by
  rw [← supplied_isSome_iff]
  constructor
  · intro h
    by_contra hnone
    rw [Option.not_isSome_iff_eq_none] at hnone
    obtain ⟨fuel, hr⟩ := h.answers ⟨0, none, 0⟩
    rw [exec_getWqeCnt_of_none hinit hnone] at hr
    exact nomatch hr
  · intro h
    obtain ⟨f, hf⟩ := Option.isSome_iff_exists.mp h
    refine ⟨fun a => ?_, fun op a b hcycle => ?_⟩
    · have hcall := calls_getWqeCnt hinit tables a
      rw [installed_of_supplied hf] at hcall
      rw [promised, hf]
      exact returns_call hcall (returns_answer rfl)
    · have hlt := (rank_lt_of_transGen (sound_calls hinit tables) (.inr h) hcycle).2
      exact lt_irrefl _ hlt

/-- A provider that supplies `post_send` and, if so chosen, `get_wqe_cnt`. -/
def postingOps (counts : Bool) : ProviderOps
  | .postSend => some fun _ => ⟨some 0, none⟩
  | .getWqeCnt => if counts then some fun a => ⟨some a.object, none⟩ else none
  | _ => none

def cleared : VerbsContext := ⟨fun _ => none, fun _ => none, fun _ => none⟩

theorem verbsInitContext_cleared :
    verbsInitContext cleared true = some (verbsSetOps cleared verbsDummyOps) := rfl

theorem grounded_iff_counting :
    ∃ vctx, verbsInitContext cleared true = some vctx ∧
      Grounded (setProviderOps vctx [postingOps true, postingOps false])
        [postingOps true, postingOps false] :=
  ⟨_, verbsInitContext_cleared,
    (grounded_iff verbsInitContext_cleared _).mpr ⟨postingOps true, by simp, rfl⟩⟩

/-- Without a `get_wqe_cnt` of the provider, the call never comes back. -/
theorem getWqeCnt_calls_itself :
    ∃ vctx, verbsInitContext cleared true = some vctx ∧
      (∀ a, Calls (body (setProviderOps vctx [postingOps false]))
        (.named .getWqeCnt, a) (.named .getWqeCnt, a)) ∧
      ∀ fuel a, exec (body (setProviderOps vctx [postingOps false])) fuel
        (.named .getWqeCnt, a) = none :=
  ⟨_, verbsInitContext_cleared, fun _ => rfl,
    exec_getWqeCnt_of_none verbsInitContext_cleared rfl⟩

end RdmaperfIso.DummyOps
