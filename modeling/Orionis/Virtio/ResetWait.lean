import Orionis.Virtio.Failure

/-!
# The reset wait

After it has reset the device, `virtio_net_init` polls `device_status` until it reads zero. The
counter goes down behind each poll that does not, from 1000 to -1, and whether the wait has failed is
read off the counter. A device that is ready at the last poll leaves it at zero, like one that is
late, and is given up.
-/

namespace Orionis.Virtio.Net

variable (env : Env)

/-- The value of the poll after `k` others. -/
def polled (n : Net) (k : ℕ) : ℕ := env.reply (n.reads + k) % 2 ^ 8

/-- How many times the status is polled. -/
def polls (n : Net) : ℕ := (n.resetDevice env).2.reads - n.reads

/-- The wait ends with the first zero, after a bounded number of polls, and reports what it saw. -/
structure WaitsRightly (n : Net) : Prop where
  bounded : n.polls env ≤ 1001
  stops : ∀ k, k + 1 < n.polls env → n.polled env k ≠ 0
  timedOut : (n.afterScan env).1 = .resetTimedOut ↔ ∀ k < n.polls env, n.polled env k ≠ 0
  returns : (∀ k < n.polls env, n.polled env k ≠ 0) →
    n.afterScan env = (.resetTimedOut, (n.resetDevice env).2)
  continues : ∀ k < n.polls env, n.polled env k = 0 →
    n.afterScan env = (n.resetDevice env).2.afterReset env

/-- The device is ready at the last poll, and not before. -/
def ReadyAtLastPoll (n : Net) : Prop :=
  (∀ k < 1000, n.polled env k ≠ 0) ∧ n.polled env 1000 = 0

variable {n : Net} {timeout k : ℕ}

/-! ## The loop -/

/-- The state after a poll. -/
def poll (n : Net) : Net := (n.readCap env 8 n.commonCfgPtr 0x14).2

/-- What the next poll reads is one further on. -/
theorem polled_poll (n : Net) (k : ℕ) : (n.poll env).polled env k = n.polled env (k + 1) := by
  have hreads : (n.poll env).reads + k = n.reads + (k + 1) := Nat.add_right_comm _ _ _
  rw [polled, polled, hreads]

/-- A poll that reads zero leaves the counter as it is. -/
theorem pollReset_of_ready (h : n.polled env 0 = 0) (timeout : ℕ) :
    pollReset env timeout n = ((timeout : ℤ), n.poll env) := by
  have hstatus : env.reply n.reads % 2 ^ 8 = 0 := h
  cases timeout <;> simp only [pollReset, readCap, hstatus, if_true] <;> rfl

/-- The last poll takes the counter below zero, if it does not read zero. -/
theorem pollReset_zero (h : n.polled env 0 ≠ 0) : pollReset env 0 n = (-1, n.poll env) := by
  have hstatus : env.reply n.reads % 2 ^ 8 ≠ 0 := h
  simp only [pollReset, readCap, hstatus, if_false]
  rfl

/-- A poll that does not read zero leaves one round less. -/
theorem pollReset_succ (h : n.polled env 0 ≠ 0) (timeout : ℕ) :
    pollReset env (timeout + 1) n = pollReset env timeout (n.poll env) := by
  have hstatus : env.reply n.reads % 2 ^ 8 ≠ 0 := h
  simp only [pollReset, readCap, hstatus, if_false]
  rfl

/-- The first zero ends the loop with what is left of the counter. -/
theorem pollReset_of_first (hk : k ≤ timeout) (hbefore : ∀ j < k, n.polled env j ≠ 0)
    (hzero : n.polled env k = 0) :
    (pollReset env timeout n).1 = timeout - k ∧
      (pollReset env timeout n).2.reads = n.reads + (k + 1) := by
  induction k generalizing n timeout with
  | zero =>
    rw [pollReset_of_ready env hzero]
    exact ⟨(sub_zero _).symm, rfl⟩
  | succ k ih =>
    obtain ⟨rest, rfl⟩ := Nat.exists_eq_add_of_lt (Nat.lt_of_lt_of_le (Nat.succ_pos k) hk)
    rw [Nat.zero_add, pollReset_succ env (hbefore 0 (Nat.succ_pos k))]
    have hnext : ∀ j < k, (n.poll env).polled env j ≠ 0 := fun j hj => by
      rw [polled_poll]
      exact hbefore (j + 1) (Nat.succ_lt_succ hj)
    obtain ⟨hcounter, hreads⟩ := @ih (n.poll env) rest (by omega) hnext (by rwa [polled_poll])
    refine ⟨hcounter.trans (by push_cast; ring), hreads.trans ?_⟩
    change n.reads + 1 + (k + 1) = n.reads + (k + 1 + 1)
    omega

/-- Without a zero the loop ends below zero. -/
theorem pollReset_of_none (h : ∀ j ≤ timeout, n.polled env j ≠ 0) :
    (pollReset env timeout n).1 = -1 ∧
      (pollReset env timeout n).2.reads = n.reads + (timeout + 1) := by
  induction timeout generalizing n with
  | zero =>
    rw [pollReset_zero env (h 0 le_rfl)]
    exact ⟨rfl, rfl⟩
  | succ timeout ih =>
    rw [pollReset_succ env (h 0 (Nat.zero_le _))]
    have hnext : ∀ j ≤ timeout, (n.poll env).polled env j ≠ 0 := fun j hj => by
      rw [polled_poll]
      exact h (j + 1) (Nat.succ_le_succ hj)
    obtain ⟨hcounter, hreads⟩ := ih hnext
    refine ⟨hcounter, hreads.trans ?_⟩
    change n.reads + 1 + (timeout + 1) = n.reads + (timeout + 1 + 1)
    omega

/-- The wait ends with the first zero. -/
theorem resetDevice_of_first (hk : k ≤ 1000) (hbefore : ∀ j < k, n.polled env j ≠ 0)
    (hzero : n.polled env k = 0) :
    (n.resetDevice env).1 = 1000 - k ∧ n.polls env = k + 1 := by
  obtain ⟨hcounter, hreads⟩ :=
    pollReset_of_first (n := n.writeCap 8 n.commonCfgPtr 0x14 0) env hk hbefore hzero
  exact ⟨hcounter, (congrArg (· - n.reads) hreads).trans (Nat.add_sub_cancel_left _ _)⟩

/-- Without a zero it runs out. -/
theorem resetDevice_of_none (h : ∀ j ≤ 1000, n.polled env j ≠ 0) :
    (n.resetDevice env).1 = -1 ∧ n.polls env = 1001 := by
  obtain ⟨hcounter, hreads⟩ :=
    pollReset_of_none (n := n.writeCap 8 n.commonCfgPtr 0x14 0) env h
  exact ⟨hcounter, (congrArg (· - n.reads) hreads).trans (Nat.add_sub_cancel_left _ _)⟩

/-- The polls end with the first zero among the first 1001, or all of these read another value. -/
theorem resetDevice_cases (n : Net) :
    (∃ k ≤ 1000, (∀ j < k, n.polled env j ≠ 0) ∧ n.polled env k = 0) ∨
      ∀ j ≤ 1000, n.polled env j ≠ 0 := by
  by_cases hnone : ∀ j ≤ 1000, n.polled env j ≠ 0
  · exact Or.inr hnone
  · have hzero : ∃ k, k ≤ 1000 ∧ n.polled env k = 0 := by
      by_contra hall
      exact hnone fun j hj hzero => hall ⟨j, hj, hzero⟩
    obtain ⟨hle, hfirst⟩ := Nat.find_spec hzero
    refine Or.inl ⟨Nat.find hzero, hle, fun j hj hearlier => ?_, hfirst⟩
    exact Nat.find_min hzero hj ⟨hj.le.trans hle, hearlier⟩

/-! ## What the call makes of it -/

/-- With all its pointers a call goes on behind the reset unless that times out. -/
theorem afterScan_of_caps (h : ¬ n.lacksCap) :
    n.afterScan env = if (n.resetDevice env).1 ≤ 0 then (.resetTimedOut, (n.resetDevice env).2)
      else (n.resetDevice env).2.afterReset env := by
  rw [afterScan, if_neg h]

/-- Nothing behind the reset is reported as a timeout. -/
theorem setUpQueues_ne_timedOut (n : Net) : (n.setUpQueues env).1 ≠ .resetTimedOut := by
  rw [setUpQueues]
  split <;> exact Outcome.noConfusion

/-- Behind the reset no stage reports that it timed out. -/
theorem afterReset_ne_timedOut (n : Net) : (n.afterReset env).1 ≠ .resetTimedOut := by
  rw [afterReset]
  split
  split_ifs
  · exact Outcome.noConfusion
  · exact setUpQueues_ne_timedOut env _
  · exact setUpQueues_ne_timedOut env _

/-- A device that is ready at the last poll only is given up. -/
theorem not_waitsRightly (h : ¬ n.lacksCap) (hready : n.ReadyAtLastPoll env) :
    ¬ n.WaitsRightly env := by
  obtain ⟨hbefore, hzero⟩ := hready
  obtain ⟨hcounter, hpolls⟩ := resetDevice_of_first env le_rfl hbefore hzero
  have hscan := n.afterScan_of_caps env h
  rw [if_pos (by rw [hcounter]; decide)] at hscan
  intro hright
  have hall := hright.timedOut.1 (by rw [hscan])
  exact hall 1000 (by rw [hpolls]; decide) hzero

/-! ## Main result -/

/-- The wait is right exactly for the devices that are not ready at the last poll only. -/
theorem waitsRightly_iff (h : ¬ n.lacksCap) : n.WaitsRightly env ↔ ¬ n.ReadyAtLastPoll env := by
  have hscan := n.afterScan_of_caps env h
  rcases n.resetDevice_cases env with ⟨k, hk, hbefore, hzero⟩ | hnone
  · obtain ⟨hcounter, hpolls⟩ := resetDevice_of_first env hk hbefore hzero
    have hlast : ¬ ∀ j < n.polls env, n.polled env j ≠ 0 := fun hall =>
      hall k (by rw [hpolls]; exact Nat.lt_succ_self k) hzero
    by_cases hlate : k = 1000
    · subst hlate
      have hready : n.ReadyAtLastPoll env := ⟨hbefore, hzero⟩
      exact iff_of_false (not_waitsRightly env h hready) (not_not.2 hready)
    · have hlt : k < 1000 := lt_of_le_of_ne hk hlate
      rw [if_neg (by rw [hcounter]; omega)] at hscan
      refine iff_of_true ⟨by omega, fun j hj => hbefore j (by omega), ?_, ?_, ?_⟩ ?_
      · rw [hscan]
        exact iff_of_false (afterReset_ne_timedOut env _) hlast
      · exact fun hall => absurd hall hlast
      · exact fun _ _ _ => hscan
      · exact fun hready => hready.1 k hlt hzero
  · obtain ⟨hcounter, hpolls⟩ := resetDevice_of_none env hnone
    rw [if_pos (by rw [hcounter]; decide)] at hscan
    have hall : ∀ j < n.polls env, n.polled env j ≠ 0 := fun j hj => hnone j (by omega)
    refine iff_of_true ⟨hpolls.le, fun j hj => hnone j (by omega), ?_, fun _ => hscan, ?_⟩ ?_
    · rw [hscan]
      exact iff_of_true rfl hall
    · exact fun j hj hzero => absurd hzero (hall j hj)
    · exact fun hready => hnone 1000 le_rfl hready.2

/-- A driver that has found its four capabilities. -/
def foundCaps : Net := { boot with cfg := fun _ => ⟨0x1000, 0, 0⟩ }

/-- A device that is ready after some polls. -/
def readyAfter (k : ℕ) : Env where
  config := fun _ => 0
  reply := fun i => if i < k then 1 else 0
  alloc := fun _ => 0

/-- A device that is ready at once. -/
theorem waitsRightly_iff_atOnce : ¬ foundCaps.lacksCap ∧
    (foundCaps.WaitsRightly (readyAfter 0) ↔ ¬ foundCaps.ReadyAtLastPoll (readyAfter 0)) := by
  have hcaps : ¬ foundCaps.lacksCap := by decide
  exact ⟨hcaps, waitsRightly_iff (readyAfter 0) hcaps⟩

/-- A device that is ready after 1000 polls is said to have timed out. -/
theorem not_waitsRightly_readyAfter :
    ¬ ∀ (env : Env) (n : Net), ¬ n.lacksCap → n.WaitsRightly env := by
  intro hall
  have hready : foundCaps.ReadyAtLastPoll (readyAfter 1000) := by
    refine ⟨fun k hk => ?_, rfl⟩
    have hreads : foundCaps.reads + k = k := Nat.zero_add k
    rw [polled, hreads, readyAfter]
    simp [hk]
  exact not_waitsRightly _ (by decide) hready (hall (readyAfter 1000) foundCaps (by decide))

end Orionis.Virtio.Net
