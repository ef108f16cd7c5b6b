import Mathlib.Data.List.Induction
import Mathlib.Data.Nat.Notation
import Mathlib.Tactic.SplitIfs

/-!
# The masks of the interrupt controllers

`pic.c` keeps the masks of both controllers in one word and writes each half to its controller.
The interrupts of the second controller come through line 2 of the first one, whose mask bit is
shared by all of them. Disabling one of these interrupts sets the shared bit, so the others are
held back with it. This file says for which sequences of calls that makes a difference.
-/

namespace Smor.Irq

/-- `irq_mask`, and the mask registers of the two controllers. -/
structure Pic where
  irqMask : BitVec 16
  master : BitVec 8
  second : BitVec 8

/-- `SLAVE_IRQ`. -/
def slaveIrq : ℕ := 8

/-- `MASTER_SLAVE`. -/
def masterSlave : ℕ := 2

/-- An assignment to `irq_mask`, and the two `outb` behind it. -/
def writeMask (irqMask : BitVec 16) : Pic where
  irqMask := irqMask
  master := irqMask.setWidth 8
  second := (irqMask >>> 8).setWidth 8

/-- `pic_enable_irq`. -/
def picEnableIrq (p : Pic) (irqNum : ℕ) : Pic :=
  let mask := p.irqMask &&& ~~~(1#16 <<< irqNum)
  writeMask (if slaveIrq ≤ irqNum then mask &&& ~~~(1#16 <<< masterSlave) else mask)

/-- `pic_disable_irq`. -/
def picDisableIrq (p : Pic) (irqNum : ℕ) : Pic :=
  let mask := p.irqMask ||| 1#16 <<< irqNum
  writeMask (if slaveIrq ≤ irqNum then mask ||| 1#16 <<< masterSlave else mask)

/-- A call of one of the two functions. -/
inductive PicCall
  | enable (irqNum : ℕ)
  | disable (irqNum : ℕ)
  deriving DecidableEq

namespace PicCall

/-- The argument of the call. -/
def irqNum : PicCall → ℕ
  | enable irqNum => irqNum
  | disable irqNum => irqNum

/-- What the call does. -/
def step (p : Pic) : PicCall → Pic
  | enable irqNum => picEnableIrq p irqNum
  | disable irqNum => picDisableIrq p irqNum

end PicCall

/-- The state after a sequence of calls. -/
def picRun (p : Pic) (calls : List PicCall) : Pic := calls.foldl PicCall.step p

/-- The interrupt reaches the processor. -/
def Pic.Deliverable (p : Pic) (irq : ℕ) : Prop :=
  if irq < slaveIrq then p.master.getLsbD irq = false
  else p.second.getLsbD (irq - slaveIrq) = false ∧ p.master.getLsbD masterSlave = false

instance decidableDeliverable (p : Pic) (irq : ℕ) : Decidable (p.Deliverable irq) :=
  inferInstanceAs (Decidable (if irq < slaveIrq then p.master.getLsbD irq = false
    else p.second.getLsbD (irq - slaveIrq) = false ∧ p.master.getLsbD masterSlave = false))

/-- The last call for the interrupt was `pic_enable_irq`. -/
def LastEnabled (calls : List PicCall) (irq : ℕ) : Prop :=
  (calls.filter fun c => c.irqNum = irq).getLast? = some (.enable irq)

instance decidableLastEnabled (calls : List PicCall) (irq : ℕ) :
    Decidable (LastEnabled calls irq) :=
  inferInstanceAs (Decidable (_ = _))

/-- The lines of the two controllers without the one that connects them. -/
def IsLine (irq : ℕ) : Prop := irq < 16 ∧ irq ≠ masterSlave

/-- After each call an interrupt is deliverable exactly if it was enabled last. -/
def FollowsCalls (p : Pic) (calls : List PicCall) : Prop :=
  ∀ done ahead, done ++ ahead = calls → done ≠ [] →
    ∀ irq, IsLine irq → ((picRun p done).Deliverable irq ↔ LastEnabled done irq)

/-- No interrupt of the second controller is disabled while another one is enabled. -/
def DisabledLast (calls : List PicCall) : Prop :=
  ∀ done irq ahead, done ++ .disable irq :: ahead = calls → slaveIrq ≤ irq →
    ∀ other, IsLine other → slaveIrq ≤ other → other ≠ irq → ¬ LastEnabled done other

section Masks

variable {p : Pic} {calls : List PicCall} {irq irqNum : ℕ}

/-- The registers hold the two halves of the word. -/
theorem deliverable_writeMask {mask : BitVec 16} (hirq : irq < 16) :
    (writeMask mask).Deliverable irq ↔
      mask.getLsbD irq = false ∧ (slaveIrq ≤ irq → mask.getLsbD masterSlave = false) := by
  unfold Pic.Deliverable writeMask slaveIrq masterSlave
  by_cases hmaster : irq < 8
  · have hnot : ¬ 8 ≤ irq := by omega
    simp [hmaster, hnot]
  · have hhalf : 8 + (irq - 8) = irq := by omega
    simp [hmaster, hhalf, show irq - 8 < 8 by omega, show 8 ≤ irq by omega]

/-- The word with the bit of an interrupt. -/
theorem getLsbD_bit (hirq : irq < 16) : (1#16 <<< irqNum).getLsbD irq = decide (irq = irqNum) := by
  rw [BitVec.getLsbD_shiftLeft, BitVec.getLsbD_one, Bool.eq_iff_iff]
  simp only [hirq, decide_true, Bool.true_and, Bool.and_eq_true, Bool.not_eq_true',
    decide_eq_false_iff_not, decide_eq_true_eq]
  omega

/-- The bits after `pic_enable_irq`. -/
theorem getLsbD_picEnableIrq (hirq : irq < 16) :
    (picEnableIrq p irqNum).irqMask.getLsbD irq =
      (p.irqMask.getLsbD irq &&
        !decide (irq = irqNum ∨ (slaveIrq ≤ irqNum ∧ irq = masterSlave))) := by
  unfold picEnableIrq writeMask
  split_ifs with hslave <;>
    simp only [BitVec.getLsbD_and, BitVec.getLsbD_not, getLsbD_bit hirq, hirq, hslave,
      decide_true, Bool.true_and, true_and, false_and, or_false, Bool.decide_or, Bool.not_or,
      Bool.and_assoc]

/-- The bits after `pic_disable_irq`. -/
theorem getLsbD_picDisableIrq (hirq : irq < 16) :
    (picDisableIrq p irqNum).irqMask.getLsbD irq =
      (p.irqMask.getLsbD irq ||
        decide (irq = irqNum ∨ (slaveIrq ≤ irqNum ∧ irq = masterSlave))) := by
  unfold picDisableIrq writeMask
  split_ifs with hslave <;>
    simp only [BitVec.getLsbD_or, getLsbD_bit hirq, hslave, true_and, false_and, or_false,
      Bool.decide_or, Bool.or_assoc]

/-- After a call both registers are those of the word. -/
theorem step_eq_writeMask (c : PicCall) : c.step p = writeMask (c.step p).irqMask := by
  cases c <;> rfl

theorem picRun_append (done ahead : List PicCall) :
    picRun p (done ++ ahead) = picRun (picRun p done) ahead := List.foldl_append

theorem picRun_concat (c : PicCall) : picRun p (calls ++ [c]) = c.step (picRun p calls) := by
  rw [picRun_append]
  rfl

/-- What a further call says about an interrupt. -/
theorem lastEnabled_concat (c : PicCall) :
    LastEnabled (calls ++ [c]) irq ↔
      if c.irqNum = irq then c = .enable irq else LastEnabled calls irq := by
  unfold LastEnabled
  rw [List.filter_append]
  by_cases heq : c.irqNum = irq
  · rw [List.filter_cons_of_pos (by simpa using heq), List.filter_nil, List.getLast?_concat,
      if_pos heq, Option.some.injEq]
  · rw [List.filter_cons_of_neg (by simpa using heq), List.filter_nil, List.append_nil, if_neg heq]

/-- The bit of a line is clear exactly if it was enabled last. -/
theorem getLsbD_picRun (hp : p.irqMask = 0xFFFF) (hcalls : ∀ c ∈ calls, IsLine c.irqNum)
    (hirq : IsLine irq) :
    (picRun p calls).irqMask.getLsbD irq = false ↔ LastEnabled calls irq := by
  obtain ⟨hlt, hne⟩ := hirq
  induction calls using List.reverseRecOn with
  | nil =>
    have hbit : (0xFFFF#16).getLsbD irq = true := by
      rw [show 0xFFFF#16 = BitVec.allOnes 16 from rfl, BitVec.getLsbD_allOnes, decide_eq_true hlt]
    simp [picRun, hp, hbit, LastEnabled]
  | append_singleton calls c ih =>
    have ih := ih fun d hd => hcalls d (List.mem_append_left _ hd)
    rw [picRun_concat, lastEnabled_concat]
    cases c with
    | enable irqNum =>
      rw [PicCall.step, getLsbD_picEnableIrq hlt]
      by_cases heq : irqNum = irq
      · simp [heq, PicCall.irqNum]
      · simp [heq, Ne.symm heq, hne, PicCall.irqNum, ih]
    | disable irqNum =>
      rw [PicCall.step, getLsbD_picDisableIrq hlt]
      by_cases heq : irqNum = irq
      · simp [heq, PicCall.irqNum]
      · simp [heq, Ne.symm heq, hne, PicCall.irqNum, ih]

/-- The shared bit after a call. -/
theorem getLsbD_masterSlave (c : PicCall) (hc : IsLine c.irqNum) :
    (c.step p).irqMask.getLsbD masterSlave =
      if slaveIrq ≤ c.irqNum then decide (c = .disable c.irqNum)
      else p.irqMask.getLsbD masterSlave := by
  have hne : masterSlave ≠ c.irqNum := Ne.symm hc.2
  cases c with
  | enable irqNum =>
    rw [PicCall.step, getLsbD_picEnableIrq (by decide)]
    by_cases hslave : slaveIrq ≤ irqNum
    · simp [PicCall.irqNum, hslave]
    · simp only [PicCall.irqNum] at hne ⊢
      simp [hslave, hne]
  | disable irqNum =>
    rw [PicCall.step, getLsbD_picDisableIrq (by decide)]
    by_cases hslave : slaveIrq ≤ irqNum
    · simp [PicCall.irqNum, hslave]
    · simp only [PicCall.irqNum] at hne ⊢
      simp [hslave, hne]

/-- After a call, an interrupt is deliverable if its bit and the shared one are clear. -/
theorem deliverable_picRun (hcalls : calls ≠ []) (hirq : irq < 16) :
    (picRun p calls).Deliverable irq ↔
      (picRun p calls).irqMask.getLsbD irq = false ∧
        (slaveIrq ≤ irq → (picRun p calls).irqMask.getLsbD masterSlave = false) := by
  obtain ⟨done, c, rfl⟩ : ∃ done c, calls = done ++ [c] :=
    ⟨_, _, (List.dropLast_concat_getLast hcalls).symm⟩
  rw [picRun_concat, step_eq_writeMask, deliverable_writeMask hirq]
  rfl

theorem DisabledLast.of_append {ahead : List PicCall} (h : DisabledLast (calls ++ ahead)) :
    DisabledLast calls := by
  intro done irq ahead' hsplit
  apply h done irq (ahead' ++ ahead)
  rw [← hsplit, List.append_assoc, List.cons_append]

/-- While an interrupt of the second controller is enabled, the shared bit is clear. -/
theorem masterSlave_clear (hcalls : ∀ c ∈ calls, IsLine c.irqNum) (h : DisabledLast calls)
    (hirq : IsLine irq) (hslave : slaveIrq ≤ irq) (hlast : LastEnabled calls irq) :
    (picRun p calls).irqMask.getLsbD masterSlave = false := by
  induction calls using List.reverseRecOn with
  | nil => simp [LastEnabled] at hlast
  | append_singleton calls c ih =>
    have hline : IsLine c.irqNum := hcalls c (by simp)
    have ih := ih (fun d hd => hcalls d (List.mem_append_left _ hd)) h.of_append
    rw [lastEnabled_concat] at hlast
    rw [picRun_concat, getLsbD_masterSlave c hline]
    split_ifs at hlast with heq
    · rw [hlast]
      simp [PicCall.irqNum, hslave]
    · by_cases hother : slaveIrq ≤ c.irqNum
      · -- A call for another interrupt of the second controller did not disable that one.
        have henable : c ≠ .disable c.irqNum := by
          intro hc
          rw [hc] at h
          exact h calls c.irqNum [] rfl hother irq hirq hslave (Ne.symm heq) hlast
        rw [if_pos hother]
        exact decide_eq_false henable
      · rw [if_neg hother]
        exact ih hlast

end Masks

/-- From the mask with all bits set on, and whatever the controllers hold: after each call exactly
the interrupts that were enabled last are deliverable, if and only if no interrupt of the second
controller is disabled while another one is enabled. -/
theorem picRun_follows_iff (p : Pic) (hp : p.irqMask = 0xFFFF) (calls : List PicCall)
    (hcalls : ∀ c ∈ calls, IsLine c.irqNum) : FollowsCalls p calls ↔ DisabledLast calls := by
  constructor
  · rintro hfollows done irq ahead rfl hslave other hline hother hne hlast
    have hirq : IsLine irq := hcalls (.disable irq) (by simp)
    have hdone : done ++ [.disable irq] ≠ [] := by simp
    have hstill : LastEnabled (done ++ [.disable irq]) other := by
      rw [lastEnabled_concat, PicCall.irqNum, if_neg (Ne.symm hne)]
      exact hlast
    have hdeliver := (hfollows (done ++ [.disable irq]) ahead (by simp) hdone other hline).mpr hstill
    have hclear := ((deliverable_picRun hdone hline.1).mp hdeliver).2 hother
    rw [picRun_concat, getLsbD_masterSlave (.disable irq) hirq] at hclear
    simp [PicCall.irqNum, hslave] at hclear
  · rintro hdisabled done ahead rfl hne irq hirq
    have hdone : ∀ c ∈ done, IsLine c.irqNum := fun c hc => hcalls c (List.mem_append_left _ hc)
    rw [deliverable_picRun hne hirq.1, getLsbD_picRun hp hdone hirq]
    refine and_iff_left_of_imp fun hlast hslave => ?_
    exact masterSlave_clear hdone hdisabled.of_append hirq hslave hlast

/-- The state after `pic_init`. -/
def picStart : Pic := writeMask 0xFFFF

/-- The keyboard is enabled, then the mouse, which is on the other controller, is enabled and
disabled, and the disk is enabled. -/
theorem picRun_follows_mouse :
    FollowsCalls picStart [.enable 1, .enable 12, .disable 12, .enable 14] := by
  refine (picRun_follows_iff picStart rfl _ ?_).mpr ?_
  · simp [PicCall.irqNum, IsLine, masterSlave]
  · intro done irq ahead hsplit hslave other hline hother hne hlast
    -- the only call that disables comes after the first two
    obtain ⟨rfl, rfl⟩ : done = [.enable 1, .enable 12] ∧ irq = 12 := by
      rcases done with _ | ⟨a, _ | ⟨b, _ | ⟨c, _ | ⟨d, done⟩⟩⟩⟩ <;> simp_all
    have hlast' : other = 12 ∨ other = 1 := by
      by_contra hnone
      push Not at hnone
      simp [LastEnabled, PicCall.irqNum, Ne.symm hnone.1, Ne.symm hnone.2] at hlast
    rcases hlast' with rfl | rfl
    · exact hne rfl
    · exact absurd hother (by decide)

/-- The mouse is enabled, then the disk, and disabling the disk holds the mouse back. -/
theorem picRun_masks_mouse :
    ¬ FollowsCalls picStart [.enable 12, .enable 14, .disable 14] := by
  intro hfollows
  have hmouse := hfollows [.enable 12, .enable 14, .disable 14] [] rfl (by simp) 12
    ⟨by decide, by decide⟩
  exact absurd hmouse (by decide)

end Smor.Irq
