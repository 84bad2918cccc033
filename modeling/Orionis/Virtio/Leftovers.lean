import Orionis.Foundations.Run
import Orionis.Virtio.Init

/-!
# Configuration pointers from call to call

`virtio_net_init` is called for every VirtIO network card the scan of the bus finds, and
collects what it reads in statics that no call resets. A call that goes on to the device
uses its own function's addresses exactly when the function's capability list provides all
four pointers from base address registers the call has read; where it provides fewer, what
an earlier call left behind takes their place.
-/

namespace Orionis.Virtio

open Orionis.Foundations

/-- A call of `virtio_net_init` for a function whose capability list comes to an end. -/
def initStep (n : Net) (env : Env) (n' : Net) : Prop :=
  Acyclic env ∧ ∃ outcome, n.virtioNetInit env = some (outcome, n')

namespace Net

/-- A register of a device has been accessed in the last call. -/
def touched (n : Net) : Prop :=
  (∃ addr width value, Effect.write addr width value ∈ n.trace) ∨
    ∃ addr width, Effect.read addr width ∈ n.trace

/-- A configuration pointer was set in the last call, from a base address that was read in
the last call. -/
def own (n : Net) (cfgType : UInt8) : Prop :=
  (n.cfg cfgType).call = n.calls ∧ (n.cfg cfgType).barCall = n.calls

/-- The last call has used addresses of its own function only, and no device where the
function's capabilities lack one of the four. -/
structure OwnAddresses (env : Env) (n : Net) : Prop where
  own : n.touched → ∀ cfgType ∈ crucial, n.own cfgType
  lacking : (∃ cfgType ∈ crucial, ∀ cap ∈ ownCaps env,
    ¬ (cap.vndr = 0x09 ∧ cap.cfgType = cfgType)) → ¬ n.touched

/-! ## The condition -/

variable (env : Env)

/-- The slots of `pci_bars` a call finds when it comes to the capabilities: those its
function's registers fill, and the others as they were left. -/
def slots (n : Net) (j : ℕ) : Bar :=
  if j ∈ ownSlots env then ⟨barBase env j, n.calls + 1⟩ else n.pciBars j

/-- The capability list provides a configuration pointer from a register of the function. -/
def Provides (n : Net) (cfgType : UInt8) : Prop :=
  ∃ cap, lastTaken (n.slots env) (ownCaps env) cfgType = some cap ∧ cap.bar.toNat ∈ ownSlots env

/-- The capability list provides no configuration pointer, or a null one, and none is left
over. -/
def Misses (n : Net) (cfgType : UInt8) : Prop :=
  ((lastTaken (n.slots env) (ownCaps env) cfgType).map fun cap =>
    (n.slots env cap.bar.toNat).base + cap.offset.toUInt64).getD (n.cfg cfgType).ptr = 0

instance (n : Net) (cfgType : UInt8) : Decidable (n.Misses env cfgType) :=
  inferInstanceAs (Decidable (_ = _))

/-- One of the four pointers is missing, or the function provides them all. -/
def SelfContained (n : Net) : Prop :=
  (∃ cfgType ∈ crucial, n.Misses env cfgType) ∨ ∀ cfgType ∈ crucial, n.Provides env cfgType

/-! ## One call -/

/-- No ghost mark is from a later call. -/
structure Marked (n : Net) : Prop where
  bars : ∀ j, (n.pciBars j).call ≤ n.calls
  cfg : ∀ cfgType, (n.cfg cfgType).call ≤ n.calls

variable {env} {n m : Net}

/-- What the walk leaves: the slots read from the function, and for each type the last
capability taken. -/
theorem scan_spec (h : n.enter.scan env = some m) :
    (∃ cfg multiplier, m =
      { n.enter with pciBars := n.slots env, cfg := cfg, notifyMultiplier := multiplier }) ∧
      ∀ cfgType, m.cfg cfgType =
        ((lastTaken (n.slots env) (ownCaps env) cfgType).map fun cap =>
          cap.entry (n.slots env) (n.calls + 1)).getD (n.cfg cfgType) := by
  have hslots : readBars env n.enter.calls 6 0 n.enter.pciBars = n.slots env :=
    funext fun j => readBars_apply env (n.calls + 1) 6 0 n.pciBars j
  rw [scan, hslots] at h
  rw [eq_of_walkCaps h]
  exact ⟨foldl_takeCap_eq _ _, foldl_takeCap_cfg _ _⟩

/-- A call with all four pointers begins by resetting the device, and nothing it does later
changes the pointers. -/
theorem afterScan_extends (env : Env) (h : ¬ m.lacksCap) :
    Extends (fun _ => True) (m.writeCap 8 m.commonCfgPtr 0x14 0) (m.afterScan env).2 := by
  have hreset : Extends Harmless (m.writeCap 8 m.commonCfgPtr 0x14 0) (m.resetDevice env).2 :=
    (Extends.refl _).pollReset env 1000
  rw [afterScan, if_neg h]
  dsimp only
  split
  · exact hreset.mono fun _ _ => trivial
  · exact (hreset.mono fun _ _ => trivial).trans (extends_afterReset env)

/-- Behind the walk no pointer and no slot is changed. -/
theorem afterScan_cfg (env : Env) (m : Net) : (m.afterScan env).2.cfg = m.cfg ∧ (m.afterScan env).2.calls = m.calls ∧
    (m.afterScan env).2.pciBars = m.pciBars := by
  by_cases hlacks : m.lacksCap
  · rw [afterScan, if_pos hlacks]
    exact ⟨rfl, rfl, rfl⟩
  · have hext := afterScan_extends env hlacks
    exact ⟨hext.cfg, hext.calls, hext.pciBars⟩

/-- The call touches a device exactly when none of the four pointers is null. -/
theorem afterScan_touched (env : Env) (h : m.trace = []) :
    (m.afterScan env).2.touched ↔ ¬ m.lacksCap := by
  by_cases hlacks : m.lacksCap
  · rw [afterScan, if_pos hlacks]
    simp [touched, h, hlacks]
  · have hwrite : Effect.write (m.commonCfgPtr + (0x14 : UInt32).toUInt64) 8 (0 % 2 ^ 8) ∈
        (m.writeCap 8 m.commonCfgPtr 0x14 0).trace :=
      List.mem_append_right _ (List.mem_singleton_self _)
    exact iff_of_true (.inl ⟨_, _, _, (afterScan_extends env hlacks).mem hwrite⟩) hlacks

/-- A pointer is null after the walk exactly when it is missing. -/
theorem scan_ptr_eq_zero_iff (h : n.enter.scan env = some m) (cfgType : UInt8) :
    (m.cfg cfgType).ptr = 0 ↔ n.Misses env cfgType := by
  rw [(scan_spec h).2, Misses]
  cases lastTaken (n.slots env) (ownCaps env) cfgType <;> rfl

/-- The check fails when one of the four pointers is missing. -/
theorem scan_lacksCap_iff (h : n.enter.scan env = some m) :
    m.lacksCap ↔ ∃ cfgType ∈ crucial, n.Misses env cfgType := by
  simp only [lacksCap, commonCfgPtr, notifyCfgPtr, isrCfgPtr, deviceCfgPtr,
    scan_ptr_eq_zero_iff h, crucial, List.mem_cons, List.not_mem_nil, or_false, exists_eq_or_imp,
    exists_eq_left]

/-- A pointer is the function's own exactly when the function provides it. -/
theorem scan_own_iff (hn : n.Marked) (h : n.enter.scan env = some m) (cfgType : UInt8) :
    m.own cfgType ↔ n.Provides env cfgType := by
  obtain ⟨⟨cfg, multiplier, hm⟩, hcfg⟩ := scan_spec h
  have hcalls : m.calls = n.calls + 1 := by rw [hm]; rfl
  rw [own, hcalls, hcfg, Provides]
  cases lastTaken (n.slots env) (ownCaps env) cfgType with
  | none =>
    have hold := hn.cfg cfgType
    simp only [Option.map_none, Option.getD_none, reduceCtorEq, false_and, exists_false, iff_false]
    omega
  | some cap =>
    have hold := hn.bars cap.bar.toNat
    simp only [Option.map_some, Option.getD_some, Cap.entry, true_and, Option.some.injEq,
      exists_eq_left', slots]
    split
    · next hmem => simp [hmem]
    · next hmem =>
      simp only [hmem, iff_false]
      omega

/-- What one call does with its addresses. -/
theorem ownAddresses_iff (hn : n.Marked) (h : n.enter.scan env = some m) :
    OwnAddresses env (m.afterScan env).2 ↔ n.SelfContained env := by
  obtain ⟨⟨cfg, multiplier, hm⟩, -⟩ := scan_spec h
  have htouched := afterScan_touched env (m := m) (by rw [hm]; rfl)
  rw [scan_lacksCap_iff h] at htouched
  have hown : ∀ cfgType, (m.afterScan env).2.own cfgType ↔ n.Provides env cfgType := by
    intro cfgType
    obtain ⟨hcfg, hcalls, -⟩ := afterScan_cfg env m
    rw [own, hcfg, hcalls]
    exact scan_own_iff hn h cfgType
  constructor
  · intro hmeets
    by_cases hmiss : ∃ cfgType ∈ crucial, n.Misses env cfgType
    · exact .inl hmiss
    · exact .inr fun cfgType hmem => (hown cfgType).1 (hmeets.own (htouched.2 hmiss) cfgType hmem)
  · intro hself
    have hprovides : (m.afterScan env).2.touched → ∀ cfgType ∈ crucial, n.Provides env cfgType :=
      fun ht => hself.resolve_left (htouched.1 ht)
    refine ⟨fun ht cfgType hmem => (hown cfgType).2 (hprovides ht cfgType hmem), ?_⟩
    rintro ⟨cfgType, hmem, hlacking⟩ ht
    -- A function that provides the pointer has a capability of its type.
    obtain ⟨cap, hlast, -⟩ := hprovides ht cfgType hmem
    obtain ⟨hcap, htaken⟩ := List.mem_filter.1 (List.mem_of_getLast? hlast)
    have htaken := of_decide_eq_true htaken
    exact hlacking cap hcap ⟨htaken.1.1, htaken.2⟩

/-- Every call leaves the marks in order. -/
theorem Marked.step (hn : n.Marked) {n' : Net} (h : initStep n env n') : n'.Marked := by
  obtain ⟨-, outcome, hcall⟩ := h
  obtain ⟨m, hscan, hm⟩ := Option.map_eq_some_iff.1 hcall
  have hn' : n' = (m.afterScan env).2 := (congrArg Prod.snd hm).symm
  obtain ⟨hcfg, hcalls, hbars⟩ := afterScan_cfg env m
  obtain ⟨⟨cfg, multiplier, heq⟩, hmcfg⟩ := scan_spec hscan
  have hmcalls : m.calls = n.calls + 1 := by rw [heq]; rfl
  have hmbars : m.pciBars = n.slots env := by rw [heq]
  subst hn'
  constructor
  · intro j
    have hold := hn.bars j
    rw [hbars, hcalls, hmbars, hmcalls, slots]
    split
    · exact le_rfl
    · omega
  · intro cfgType
    have hold := hn.cfg cfgType
    rw [hcfg, hcalls, hmcfg, hmcalls]
    cases lastTaken (n.slots env) (ownCaps env) cfgType with
    | none => exact hold.trans (Nat.le_succ _)
    | some cap => exact le_rfl

/-- At boot nothing is marked. -/
theorem marked_boot : boot.Marked := ⟨fun _ => le_rfl, fun _ => le_rfl⟩

/-! ## Every run of calls -/

/-- After any calls since boot, the next call returns, and it keeps to the addresses of its
own function exactly when the function is self-contained. -/
theorem ownAddresses_iff_of_run {envs : List Env} (hrun : Run initStep boot envs n)
    (hacyclic : Acyclic env) :
    ∃ result, n.virtioNetInit env = some result ∧
      (OwnAddresses env result.2 ↔ n.SelfContained env) := by
  have hn : n.Marked := hrun.invariant marked_boot fun _ _ _ ht he => ht.step he
  obtain ⟨m, hscan⟩ := Option.isSome_iff_exists.1
    (hacyclic.walkCaps_isSome { n.enter with pciBars := readBars env n.enter.calls 6 0 _ })
  exact ⟨m.afterScan env, by rw [virtioNetInit, scan, hscan]; rfl, ownAddresses_iff hn hscan⟩

/-! ## Two cards -/

end Net

/-- A card with its four capabilities at 0x40 to 0x70 and one 32-bit base address. -/
def cardEnv : Env where
  config := fun i => match i with
    | 4 => 0xFE000000
    | 13 => 0x40
    | 16 => 0x01005009
    | 20 => 0x02006009
    | 22 => 0x1000
    | 24 => 0x03007009
    | 26 => 0x2000
    | 28 => 0x04000009
    | 30 => 0x3000
    | _ => 0
  reply := fun _ => 0
  alloc := fun _ => 0

/-- A card without capabilities. -/
def bareEnv : Env := ⟨fun _ => 0, fun _ => 0, fun _ => 0⟩

/-- Its list comes to an end. -/
theorem cardEnv_acyclic : Acyclic cardEnv := ⟨[0x40, 0x50, 0x60, 0x70], by decide +kernel⟩

/-- So does the empty one. -/
theorem bareEnv_acyclic : Acyclic bareEnv := ⟨[], by decide +kernel⟩

namespace Net

/-- A second card that provides everything is initialised from its own addresses. -/
theorem ownAddresses_iff_of_run_card :
    ∃ first second, Run initStep boot [cardEnv] first ∧ first.SelfContained cardEnv ∧
      first.virtioNetInit cardEnv = some second ∧ OwnAddresses cardEnv second.2 := by
  obtain ⟨first, hfirst, hprovides⟩ : ∃ first, boot.virtioNetInit cardEnv = some first ∧
      ∀ cfgType ∈ crucial, (lastTaken (first.2.slots cardEnv) (ownCaps cardEnv) cfgType).any
        fun cap => cap.bar.toNat ∈ ownSlots cardEnv := ⟨_, rfl, by decide +kernel⟩
  have hrun : Run initStep boot [cardEnv] first.2 := .single ⟨cardEnv_acyclic, first.1, hfirst⟩
  have hself : first.2.SelfContained cardEnv := .inr fun cfgType hmem => by
    obtain ⟨cap, hcap, hown⟩ := (Option.any_eq_true ..).1 (hprovides cfgType hmem)
    exact ⟨cap, hcap, of_decide_eq_true hown⟩
  obtain ⟨second, hsecond, hiff⟩ := ownAddresses_iff_of_run hrun cardEnv_acyclic
  exact ⟨first.2, second, hrun, hself, hsecond, hiff.2 hself⟩

/-- The second card has no capabilities at all, and the first card is reset in its place. -/
theorem not_ownAddresses_secondCard :
    ¬ ∀ (envs : List Env) (n : Net) (env : Env) (result : Outcome × Net),
      Run initStep boot envs n → Acyclic env → n.virtioNetInit env = some result →
        OwnAddresses env result.2 := by
  intro h
  obtain ⟨first, second, hfirst, hsecond, hwrite⟩ : ∃ first second,
      boot.virtioNetInit cardEnv = some first ∧ first.2.virtioNetInit bareEnv = some second ∧
        Effect.write 0xFE000014 8 0 ∈ second.2.trace := ⟨_, _, rfl, rfl, by decide +kernel⟩
  have hrun : Run initStep boot [cardEnv] first.2 := .single ⟨cardEnv_acyclic, first.1, hfirst⟩
  have hmeets := h _ _ _ _ hrun bareEnv_acyclic hsecond
  exact hmeets.lacking ⟨1, by decide, by decide +kernel⟩ (.inl ⟨_, _, _, hwrite⟩)

end Net

end Orionis.Virtio
