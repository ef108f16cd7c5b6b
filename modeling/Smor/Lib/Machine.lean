import Mathlib.Algebra.Group.Nat.Defs
import Mathlib.Data.Nat.Notation
import Mathlib.Logic.Function.Basic

/-!
# Register and stack machine

A fragment of x86-64 in long mode: the general registers, the instructions that move values
between registers and the stack, calls, and interrupts. Memory is a function from the
address of a quadword to its value; every access of this fragment is an aligned quadword.
`Machine.slot` looks at the stack from its top, and the lemmas say how pushing and popping
shift this view.
-/

namespace Smor.Lib

/-- A quadword. -/
abbrev Word := BitVec 64

/-- The 16 general registers. -/
inductive Reg
  | rax | rbx | rcx | rdx | rsi | rdi | rbp | rsp
  | r8 | r9 | r10 | r11 | r12 | r13 | r14 | r15
  deriving DecidableEq

/-- The state of one processor. `rip` is set where control leaves straight-line code. -/
structure Machine where
  reg : Reg → Word
  rip : Word
  cs : Word
  rflags : Word
  ss : Word
  mem : Word → Word

/-- Instructions of straight-line code. -/
inductive Instr
  /-- `pushq %r`. -/
  | push (r : Reg)
  /-- `push $v`. -/
  | pushImm (v : Word)
  /-- `popq %r`. -/
  | pop (r : Reg)
  /-- `addq $v, %rsp`. -/
  | addRsp (v : Word)
  /-- `movq %rsp, (%r)`. -/
  | storeRsp (r : Reg)
  /-- `movq %r, %rsp`. -/
  | loadRsp (r : Reg)
  /-- `cld`. -/
  | cld

/-- The gates through which an interrupt enters. -/
inductive Gate
  | trap | interrupt

namespace Machine

/-- The quadword `k` places above the top of the stack. -/
def slot (m : Machine) (k : ℕ) : Word := m.mem (m.reg .rsp + BitVec.ofNat 64 (8 * k))

/-- Push a value. -/
def pushWord (m : Machine) (v : Word) : Machine :=
  { m with
    reg := Function.update m.reg .rsp (m.reg .rsp - 8)
    mem := Function.update m.mem (m.reg .rsp - 8) v }

/-- Pop into a register. -/
def popReg (m : Machine) (r : Reg) : Machine :=
  { m with reg := Function.update (Function.update m.reg .rsp (m.reg .rsp + 8)) r (m.slot 0) }

/-- Set the stack pointer. -/
def setRsp (m : Machine) (v : Word) : Machine :=
  { m with reg := Function.update m.reg .rsp v }

/-- Set the flags. -/
def setFlags (m : Machine) (v : Word) : Machine := { m with rflags := v }

/-- One instruction. -/
def exec (m : Machine) : Instr → Machine
  | .push r => m.pushWord (m.reg r)
  | .pushImm v => m.pushWord v
  | .pop r => m.popReg r
  | .addRsp v => m.setRsp (m.reg .rsp + v)
  | .storeRsp r => { m with mem := Function.update m.mem (m.reg r) (m.reg .rsp) }
  | .loadRsp r => m.setRsp (m.reg r)
  | .cld => m.setFlags (m.rflags &&& ~~~0x400)

/-- Straight-line code. -/
def run (m : Machine) (code : List Instr) : Machine := code.foldl exec m

/-- `call`, up to the first instruction of the callee. -/
def call (m : Machine) (returnTo : Word) : Machine := m.pushWord returnTo

/-- `retq`. -/
def ret (m : Machine) : Machine :=
  { m.setRsp (m.reg .rsp + 8) with rip := m.slot 0 }

/-- `iretq`. -/
def iret (m : Machine) : Machine :=
  { m.setRsp (m.slot 3) with
    rip := m.slot 0
    cs := m.slot 1
    rflags := m.slot 2
    ss := m.slot 4 }

/-- The flags in the handler: `TF`, `NT`, `RF`, and `VM` are cleared, and an interrupt gate
also clears `IF`. -/
def gateFlags : Gate → Word → Word
  | .trap, flags => flags &&& ~~~0x34100
  | .interrupt, flags => flags &&& ~~~0x34300

/-- What the processor does on an interrupt without a change of privilege: the stack pointer
is aligned, and the interrupted state is pushed, for some exceptions with an error code. -/
def interrupt (m : Machine) (gate : Gate) (error : Option Word) : Machine :=
  let aligned := m.setRsp (m.reg .rsp &&& ~~~0xF)
  let saved := ((((aligned.pushWord m.ss).pushWord (m.reg .rsp)).pushWord m.rflags).pushWord
    m.cs).pushWord m.rip
  let entered := saved.setFlags (gateFlags gate m.rflags)
  match error with
  | some code => entered.pushWord code
  | none => entered

section Views

variable (m : Machine) (v : Word) (r : Reg) (k : ℕ)

/-- Pushing moves the stack pointer and no other register. -/
@[simp] theorem pushWord_reg :
    (m.pushWord v).reg = Function.update m.reg .rsp (m.reg .rsp - 8) := rfl

/-- Seen from the top, a pushed value comes first and the others follow. -/
theorem slot_pushWord (hk : k < 2 ^ 60) :
    (m.pushWord v).slot k = if k = 0 then v else m.slot (k - 1) := by
  unfold slot pushWord
  simp only [Function.update_self]
  by_cases hzero : k = 0
  · simp [hzero]
  · rw [if_neg hzero, Function.update_of_ne]
    · congr 1
      bv_omega
    · bv_omega

theorem storeRsp_reg : (m.exec (.storeRsp r)).reg = m.reg := rfl

/-- A store is read back at its own address. -/
theorem storeRsp_mem : (m.exec (.storeRsp r)).mem (m.reg r) = m.reg .rsp :=
  Function.update_self _ _ _

/-- A store somewhere else does not change the view. -/
theorem slot_storeRsp (h : m.reg r ≠ m.reg .rsp + BitVec.ofNat 64 (8 * k)) :
    (m.exec (.storeRsp r)).slot k = m.slot k := by
  unfold slot exec
  exact Function.update_of_ne (Ne.symm h) _ _

/-- Popping sets its register and moves the stack pointer. -/
@[simp] theorem popReg_reg : (m.popReg r).reg =
    Function.update (Function.update m.reg .rsp (m.reg .rsp + 8)) r (m.slot 0) := rfl

@[simp] theorem setRsp_reg : (m.setRsp v).reg = Function.update m.reg .rsp v := rfl

@[simp] theorem setFlags_reg : (m.setFlags v).reg = m.reg := rfl

@[simp] theorem slot_setFlags : (m.setFlags v).slot k = m.slot k := rfl

/-- Dropping two quadwords shifts the view by two. -/
theorem slot_setRsp_add : (m.setRsp (m.reg .rsp + 16)).slot k = m.slot (k + 2) := by
  unfold slot setRsp
  simp only [Function.update_self]
  congr 1
  bv_omega

@[simp] theorem ret_reg : m.ret.reg = Function.update m.reg .rsp (m.reg .rsp + 8) := rfl

/-- Returning shifts the view by one. -/
theorem slot_ret : m.ret.slot k = m.slot (k + 1) := by
  unfold slot
  simp only [ret_reg, Function.update_self]
  change m.mem _ = _
  congr 1
  bv_omega

/-- Popping shifts the view by one. -/
theorem slot_popReg (hr : r ≠ .rsp) : (m.popReg r).slot k = m.slot (k + 1) := by
  unfold slot popReg
  simp only [Function.update_of_ne (Ne.symm hr), Function.update_self]
  congr 1
  bv_omega

/-- The values at the top of the stack. -/
def HasTop (m : Machine) (values : List Word) : Prop :=
  ∀ k < values.length, m.slot k = values.getD k 0

variable {m v r} {values : List Word}

theorem hasTop_nil (m : Machine) : m.HasTop [] := by
  intro k hk
  simp at hk

theorem HasTop.push (h : m.HasTop values) (v : Word) (hlen : values.length < 2 ^ 40) :
    (m.pushWord v).HasTop (v :: values) := by
  intro k hk
  rw [List.length_cons] at hk
  rw [slot_pushWord m v k (by omega)]
  cases k with
  | zero => rfl
  | succ k => simpa using h k (by omega)

theorem HasTop.setFlags (h : m.HasTop values) (v : Word) : (m.setFlags v).HasTop values := h

theorem HasTop.pop (h : m.HasTop (v :: values)) (hr : r ≠ .rsp) : (m.popReg r).HasTop values := by
  intro k hk
  rw [slot_popReg m r k hr, h (k + 1) (by simpa using hk), List.getD_cons_succ]

theorem HasTop.ret (h : m.HasTop (v :: values)) : m.ret.HasTop values := by
  intro k hk
  rw [slot_ret m k, h (k + 1) (by simpa using hk), List.getD_cons_succ]

/-- The first quadwords of the stack are at its top. -/
theorem hasTop_slots (m : Machine) (n : ℕ) : m.HasTop ((List.range n).map m.slot) := by
  intro k hk
  rw [List.length_map, List.length_range] at hk
  simp [List.getD_eq_getElem?_getD, hk]

theorem HasTop.slot_zero (h : m.HasTop (v :: values)) : m.slot 0 = v := h 0 (by simp)

theorem HasTop.drop_two {w : Word} (h : m.HasTop (v :: w :: values)) :
    (m.setRsp (m.reg .rsp + 16)).HasTop values := by
  intro k hk
  rw [slot_setRsp_add, h (k + 2) (by simpa using hk), List.getD_cons_succ, List.getD_cons_succ]

theorem run_cons (m : Machine) (i : Instr) (code : List Instr) :
    m.run (i :: code) = (m.exec i).run code := rfl

/-- Code that follows other code. -/
theorem run_append (m : Machine) (code code' : List Instr) :
    m.run (code ++ code') = (m.run code).run code' := List.foldl_append

/-- Pushes write below the stack pointer. -/
theorem run_push_mem {regs : List Reg} {m : Machine} {a : Word}
    (h : ∀ j < regs.length, a ≠ m.reg .rsp - BitVec.ofNat 64 (8 * (j + 1))) :
    (m.run (regs.map .push)).mem a = m.mem a := by
  induction regs generalizing m with
  | nil => rfl
  | cons r regs ih =>
    rw [List.map_cons, run_cons, ih]
    · exact Function.update_of_ne (h 0 (by simp)) _ _
    · intro j hj heq
      apply h (j + 1) (by simpa using hj)
      rw [heq]
      simp only [exec, pushWord_reg, Function.update_self]
      bv_omega

/-- An interrupt leaves the interrupted state at the top of the stack. -/
theorem interrupt_hasTop (m : Machine) (gate : Gate) (error : Option Word) :
    (m.interrupt gate error).HasTop
      (error.toList ++ [m.rip, m.cs, m.rflags, m.reg .rsp, m.ss]) := by
  have h₁ := (hasTop_nil (m.setRsp (m.reg .rsp &&& ~~~0xF))).push m.ss (by simp)
  have h₂ := h₁.push (m.reg .rsp) (by simp)
  have h₃ := h₂.push m.rflags (by simp)
  have h₄ := h₃.push m.cs (by simp)
  have h₅ := (h₄.push m.rip (by simp)).setFlags (gateFlags gate m.rflags)
  cases error with
  | none => exact h₅
  | some code => exact h₅.push code (by simp)

/-- An interrupt changes the stack pointer and no other general register. -/
theorem interrupt_reg (m : Machine) (gate : Gate) (error : Option Word) {r : Reg}
    (hr : r ≠ .rsp) : (m.interrupt gate error).reg r = m.reg r := by
  cases error <;> simp [interrupt, hr]

end Views

end Machine

end Smor.Lib
