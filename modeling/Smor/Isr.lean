import Smor.Lib.Machine
import Mathlib.Tactic.SplitIfs

/-!
# Interrupt entry and return

The stubs of `isr.S` save the registers that a C function may change, call the C part of the
handler with the saved state as its argument on the stack, and restore them. `PUSH_REGS` does
not save `rsi` and `rdi`, which the calling convention of the compiler lets a function
change. `context_switch` saves what a function must keep and switches stacks; the call
returns when another thread switches back.
-/

namespace Smor.Isr

open Smor.Lib

/-- `PUSH_REGS`. -/
def pushRegs : List Instr :=
  [.push .rax, .push .rcx, .push .rdx, .push .r8, .push .r9, .push .r10, .push .r11]

/-- `POP_REGS`. -/
def popRegs : List Instr :=
  [.pop .r11, .pop .r10, .pop .r9, .pop .r8, .pop .rdx, .pop .rcx, .pop .rax]

/-- The interrupt stubs, with their number, and the error code if the processor pushes one. -/
inductive Stub
  | trap (num : Word)
  | trapErr (num error : Word)
  | irq (num : Word)
  | lint (num : Word)

/-- The gate that `idt_init` or `cpu_interrupt_set` installs for a stub. -/
def Stub.gate : Stub → Gate
  | .trap _ | .trapErr _ _ => .trap
  | .irq _ | .lint _ => .interrupt

/-- The error code that the processor pushes. -/
def Stub.error : Stub → Option Word
  | .trapErr _ error => some error
  | .trap _ | .irq _ | .lint _ => none

/-- The number that a stub pushes. -/
def Stub.num : Stub → Word
  | .trap num | .trapErr num _ | .irq num | .lint num => num

/-- The code of a stub before its call: `TRAP`, `TRAP_ERR`, `IRQ`, and `LINT`. -/
def Stub.code : Stub → List Instr
  | .trapErr num _ => [.pushImm num, .cld] ++ pushRegs
  | .trap num | .irq num | .lint num => [.pushImm 0, .pushImm num, .cld] ++ pushRegs

/-- From the interrupted instruction to the first instruction of `cpu_exception`,
`cpu_interrupt`, or `cpu_local_interrupt`; `returnTo` is the address of the jump behind
the call. -/
def enter (stub : Stub) (m : Machine) (returnTo : Word) : Machine :=
  ((m.interrupt stub.gate stub.error).run stub.code).call returnTo

/-- `_isr_ret`. -/
def isrRet (m : Machine) : Machine := (m.run (popRegs ++ [.addRsp 16])).iret

/-- The number of quadwords of `struct isr_frame_t`. -/
def isrFrameSize : ℕ := 14

/-- `struct isr_frame_t`. -/
structure IsrFrame where
  r11 : Word
  r10 : Word
  r9 : Word
  r8 : Word
  rdx : Word
  rcx : Word
  rax : Word
  trapNum : Word
  trapErr : Word
  rip : Word
  cs : Word
  rflags : Word
  rsp : Word
  ss : Word

/-- The quadwords of a frame, in the order of memory. -/
def IsrFrame.words (f : IsrFrame) : List Word :=
  [f.r11, f.r10, f.r9, f.r8, f.rdx, f.rcx, f.rax, f.trapNum, f.trapErr, f.rip, f.cs, f.rflags,
    f.rsp, f.ss]

@[simp] theorem IsrFrame.length_words (f : IsrFrame) : f.words.length = isrFrameSize := rfl

/-- `struct switch_context_t`. -/
structure SwitchContext where
  r15 : Word
  r14 : Word
  r13 : Word
  r12 : Word
  rsi : Word
  rdi : Word
  rbp : Word
  rbx : Word
  rip : Word

/-- The registers of a context. -/
def SwitchContext.regs (x : SwitchContext) : List (Reg × Word) :=
  [(.r15, x.r15), (.r14, x.r14), (.r13, x.r13), (.r12, x.r12), (.rsi, x.rsi), (.rdi, x.rdi),
    (.rbp, x.rbp), (.rbx, x.rbx)]

/-- The quadwords of a context, in the order of memory. -/
def SwitchContext.words (x : SwitchContext) : List Word :=
  [x.r15, x.r14, x.r13, x.r12, x.rsi, x.rdi, x.rbp, x.rbx, x.rip]

@[simp] theorem SwitchContext.length_words (x : SwitchContext) : x.words.length = 9 := rfl

/-- What `context_switch` saves of the thread that calls it. -/
def savedContext (a : Machine) : SwitchContext :=
  ⟨a.reg .r15, a.reg .r14, a.reg .r13, a.reg .r12, a.reg .rsi, a.reg .rdi, a.reg .rbp, a.reg .rbx,
    a.slot 0⟩

/-- The registers that `context_switch` saves. -/
def contextPush : List Instr :=
  [.push .rbx, .push .rbp, .push .rdi, .push .rsi, .push .r12, .push .r13, .push .r14, .push .r15]

/-- `context_switch` before it changes stacks. -/
def contextSave : List Instr := contextPush ++ [.storeRsp .rdi]

/-- `context_switch` from the change of stacks on, without the final `retq`. -/
def contextLoad : List Instr :=
  [.loadRsp .rsi, .pop .r15, .pop .r14, .pop .r13, .pop .r12, .pop .rsi, .pop .rdi, .pop .rbp,
    .pop .rbx]

/-- The registers that a function keeps. -/
def calleeSaved : List Reg := [.rbx, .rbp, .r12, .r13, .r14, .r15]

/-- A call that enters a function at `a` and comes back at `b` obeys the calling convention:
it keeps the registers in `calleeSaved` and the `depth` quadwords of its callers above the
return address, and it returns behind the call. -/
structure SysVCall (depth : ℕ) (a b : Machine) : Prop where
  saved : ∀ r ∈ calleeSaved, b.reg r = a.reg r
  rsp : b.reg .rsp = a.reg .rsp + 8
  rip : b.rip = a.slot 0
  kept : ∀ k < depth, b.slot k = a.slot (k + 1)

/-- The thread that called `context_switch` at `a` is switched back to by a call of
`context_switch` that reaches its change of stacks at `c`: that call has the pointer left
in `*old_ctx` as its `new_ctx`, and nobody has written to the stack of the suspended
thread, whose `thread_t` does not lie on it. -/
structure Resumed (depth : ℕ) (a c : Machine) : Prop where
  ctx : c.reg .rsi = (a.run contextSave).mem (a.reg .rdi)
  own : ∀ k < depth + 9, a.reg .rdi ≠ (a.run contextSave).reg .rsp + BitVec.ofNat 64 (8 * k)
  kept : ∀ k < depth + 9, c.mem ((a.run contextSave).reg .rsp + BitVec.ofNat 64 (8 * k)) =
    (a.run contextSave).slot k

/-- A call of `context_switch`, as the suspended thread sees it. -/
def SwitchCall (depth : ℕ) (a b : Machine) : Prop :=
  ∃ c, Resumed depth a c ∧ b = (c.run contextLoad).ret

/-- Compiled C code, as a relation between its entry and its return that may use a function
it calls: it obeys the calling convention if that function does. -/
def Compiled (depth : ℕ) (body : (ℕ → Machine → Machine → Prop) → Machine → Machine → Prop) :
    Prop :=
  ∀ callee, (∀ d ≤ 2 ^ 32, ∀ a b, callee d a b → SysVCall d a b) →
    ∀ a b, body callee a b → SysVCall depth a b

/-- `struct isr_frame_t` as the handler finds it above its return address. -/
def isrFrame (stub : Stub) (m : Machine) : List Word :=
  [m.reg .r11, m.reg .r10, m.reg .r9, m.reg .r8, m.reg .rdx, m.reg .rcx, m.reg .rax,
    stub.num, stub.error.getD 0, m.rip, m.cs, m.rflags, m.reg .rsp, m.ss]

section Frames

variable {m : Machine} {values : List Word}

/-- `PUSH_REGS` puts seven registers on the stack. -/
theorem pushRegs_hasTop (h : m.HasTop values) (hlen : values.length < 100) :
    (m.run pushRegs).HasTop ([m.reg .r11, m.reg .r10, m.reg .r9, m.reg .r8, m.reg .rdx,
      m.reg .rcx, m.reg .rax] ++ values) := by
  have h₁ := h.push (m.reg .rax) (by omega)
  have h₂ := h₁.push (m.reg .rcx) (by simp; omega)
  have h₃ := h₂.push (m.reg .rdx) (by simp; omega)
  have h₄ := h₃.push (m.reg .r8) (by simp; omega)
  have h₅ := h₄.push (m.reg .r9) (by simp; omega)
  have h₆ := h₅.push (m.reg .r10) (by simp; omega)
  have h₇ := h₆.push (m.reg .r11) (by simp; omega)
  simpa [Machine.run, pushRegs, Machine.exec] using h₇

/-- The common end of the stubs, on the stack left by their beginning. -/
theorem stubEnd_hasTop (h : m.HasTop values) (hlen : values.length < 50) (num returnTo : Word) :
    ((m.run ([.pushImm num, .cld] ++ pushRegs)).call returnTo).HasTop
      ([returnTo, m.reg .r11, m.reg .r10, m.reg .r9, m.reg .r8, m.reg .rdx, m.reg .rcx,
        m.reg .rax, num] ++ values) := by
  have hnum := (h.push num (by omega)).setFlags ((m.pushWord num).rflags &&& ~~~0x400)
  have hregs := pushRegs_hasTop hnum (by simp; omega)
  have hcall := hregs.push returnTo (by simp; omega)
  rw [Machine.run_append, Machine.call, Machine.run_cons, Machine.run_cons]
  simpa [Machine.exec, Machine.run] using hcall

/-- A stub for an interrupt without an error code pushes a zero in its place. -/
theorem enter_hasTop_of_code {stub : Stub} (herror : stub.error = none)
    (hcode : stub.code = .pushImm 0 :: ([.pushImm stub.num, .cld] ++ pushRegs)) (m : Machine)
    (returnTo : Word) : (enter stub m returnTo).HasTop (returnTo :: isrFrame stub m) := by
  have hhw := m.interrupt_hasTop stub.gate none
  have hend := stubEnd_hasTop (hhw.push 0 (by simp)) (by simp) stub.num returnTo
  rw [enter, herror, hcode, Machine.run_cons, isrFrame, herror]
  simpa [Machine.exec, Machine.interrupt_reg] using hend

/-- The handler finds its return address and the frame at the top of its stack. -/
theorem enter_hasTop (stub : Stub) (m : Machine) (returnTo : Word) :
    (enter stub m returnTo).HasTop (returnTo :: isrFrame stub m) := by
  cases stub with
  | trapErr num error =>
    have hhw := m.interrupt_hasTop .trap (some error)
    have hend := stubEnd_hasTop hhw (by simp) num returnTo
    simpa [enter, Stub.code, isrFrame, Stub.error, Stub.gate, Stub.num, Machine.interrupt_reg]
      using hend
  | trap num => exact enter_hasTop_of_code rfl rfl m returnTo
  | irq num => exact enter_hasTop_of_code rfl rfl m returnTo
  | lint num => exact enter_hasTop_of_code rfl rfl m returnTo

/-- The way to the handler changes no general register but the stack pointer. -/
theorem enter_reg (stub : Stub) (m : Machine) (returnTo : Word) {r : Reg} (hr : r ≠ .rsp) :
    (enter stub m returnTo).reg r = m.reg r := by
  cases stub <;>
    simp [enter, Machine.call, Machine.run, Stub.code, pushRegs, Machine.exec, hr,
      Machine.interrupt_reg]

/-- `_isr_ret` takes its registers from the frame and returns to where the frame says. -/
theorem isrRet_frame {f : IsrFrame} {b : Machine} (h : b.HasTop f.words) :
    (isrRet b).rip = f.rip ∧ (isrRet b).cs = f.cs ∧ (isrRet b).rflags = f.rflags ∧
    (isrRet b).ss = f.ss ∧ (isrRet b).reg .rsp = f.rsp ∧
    (∀ p ∈ [(Reg.r11, f.r11), (.r10, f.r10), (.r9, f.r9), (.r8, f.r8), (.rdx, f.rdx),
      (.rcx, f.rcx), (.rax, f.rax)], (isrRet b).reg p.1 = p.2) ∧
    ∀ r ∈ [Reg.rsi, .rdi, .rbx, .rbp, .r12, .r13, .r14, .r15], (isrRet b).reg r = b.reg r := by
  have h₁ := h.pop (r := .r11) (by decide)
  have h₂ := h₁.pop (r := .r10) (by decide)
  have h₃ := h₂.pop (r := .r9) (by decide)
  have h₄ := h₃.pop (r := .r8) (by decide)
  have h₅ := h₄.pop (r := .rdx) (by decide)
  have h₆ := h₅.pop (r := .rcx) (by decide)
  have h₇ := h₆.pop (r := .rax) (by decide)
  have h₈ := h₇.drop_two
  refine ⟨h₈.slot_zero, h₈ 1 (by simp), h₈ 2 (by simp), h₈ 4 (by simp), h₈ 3 (by simp),
    fun p hp => ?_, fun r hr => ?_⟩
  · simp only [List.mem_cons, List.not_mem_nil, or_false] at hp
    rcases hp with rfl | rfl | rfl | rfl | rfl | rfl | rfl <;>
      simp [isrRet, Machine.run, popRegs, Machine.exec, Machine.iret, h.slot_zero, h₁.slot_zero,
        h₂.slot_zero, h₃.slot_zero, h₄.slot_zero, h₅.slot_zero, h₆.slot_zero]
  · simp only [List.mem_cons, List.not_mem_nil, or_false] at hr
    rcases hr with rfl | rfl | rfl | rfl | rfl | rfl | rfl | rfl <;>
      simp [isrRet, Machine.run, popRegs, Machine.exec, Machine.iret]

/-- `_isr_ret` reads the frame of an interrupt back. -/
theorem isrRet_spec {stub : Stub} {b : Machine} (h : b.HasTop (isrFrame stub m)) :
    (isrRet b).rip = m.rip ∧ ∀ r, (isrRet b).reg r =
      if r ∈ [Reg.rsi, .rdi, .rbx, .rbp, .r12, .r13, .r14, .r15] then b.reg r else m.reg r := by
  let f : IsrFrame := ⟨m.reg .r11, m.reg .r10, m.reg .r9, m.reg .r8, m.reg .rdx, m.reg .rcx,
    m.reg .rax, stub.num, stub.error.getD 0, m.rip, m.cs, m.rflags, m.reg .rsp, m.ss⟩
  obtain ⟨hrip, -, -, -, hrsp, hpopped, hkept⟩ := isrRet_frame (f := f) h
  refine ⟨hrip, fun r => ?_⟩
  split_ifs with hr
  · exact hkept r hr
  · by_cases heq : r = .rsp
    · rw [heq]
      exact hrsp
    · apply hpopped (r, m.reg r)
      cases r <;> simp [f] at hr heq ⊢

end Frames

section Switch

variable {depth : ℕ} {a b c : Machine}

/-- The pushes of `context_switch`. -/
theorem contextPush_hasTop (hdepth : depth ≤ 2 ^ 32) (a : Machine) :
    (a.run contextPush).HasTop ([a.reg .r15, a.reg .r14, a.reg .r13, a.reg .r12, a.reg .rsi,
      a.reg .rdi, a.reg .rbp, a.reg .rbx] ++ (List.range (depth + 1)).map a.slot) := by
  have h₁ := (a.hasTop_slots (depth + 1)).push (a.reg .rbx) (by simp; omega)
  have h₂ := h₁.push (a.reg .rbp) (by simp; omega)
  have h₃ := h₂.push (a.reg .rdi) (by simp; omega)
  have h₄ := h₃.push (a.reg .rsi) (by simp; omega)
  have h₅ := h₄.push (a.reg .r12) (by simp; omega)
  have h₆ := h₅.push (a.reg .r13) (by simp; omega)
  have h₇ := h₆.push (a.reg .r14) (by simp; omega)
  have h₈ := h₇.push (a.reg .r15) (by simp; omega)
  simpa [Machine.run, contextPush, Machine.exec] using h₈

/-- The pushes of `context_switch` change only the stack pointer. -/
theorem contextPush_reg (a : Machine) (r : Reg) :
    (a.run contextPush).reg r = if r = .rsp then a.reg .rsp - 64 else a.reg r := by
  by_cases hr : r = .rsp
  · subst hr
    simp only [Machine.run, contextPush, Machine.exec, List.foldl_cons, List.foldl_nil,
      Machine.pushWord_reg, Function.update_self, if_true]
    bv_omega
  · simp [Machine.run, contextPush, Machine.exec, hr]

/-- `context_switch` stores the stack pointer behind its pushes. -/
theorem run_contextSave (a : Machine) :
    a.run contextSave = (a.run contextPush).exec (.storeRsp .rdi) := by
  rw [contextSave, Machine.run_append, Machine.run_cons]
  rfl

/-- The thread that is switched back to finds its registers and its stack. -/
theorem Resumed.hasTop (hdepth : depth ≤ 2 ^ 32) (h : Resumed depth a c) :
    (c.setRsp (c.reg .rsi)).HasTop ([a.reg .r15, a.reg .r14, a.reg .r13, a.reg .r12, a.reg .rsi,
      a.reg .rdi, a.reg .rbp, a.reg .rbx] ++ (List.range (depth + 1)).map a.slot) := by
  obtain ⟨hctx, hown, hkept⟩ := h
  have hpush := contextPush_hasTop hdepth a
  have hrdi : (a.run contextPush).reg .rdi = a.reg .rdi := contextPush_reg a .rdi
  rw [run_contextSave] at hctx hown hkept
  generalize a.run contextPush = p at *
  rw [← hrdi, Machine.storeRsp_mem] at hctx
  intro k hk
  have hk' : k < depth + 9 := by
    simp only [List.length_append, List.length_cons, List.length_nil, List.length_map,
      List.length_range] at hk
    omega
  rw [← hpush k hk, Machine.slot, Machine.setRsp_reg, Function.update_self, hctx]
  rw [← hrdi] at hown
  rw [← Machine.slot_storeRsp p .rdi k (hown k hk'), ← hkept k hk']
  rfl

/-- The pointer in `*old_ctx` is the stack pointer behind the pushes. -/
theorem Resumed.rsi (h : Resumed depth a c) : c.reg .rsi = a.reg .rsp - 64 := by
  have hctx := h.ctx
  have hrdi : (a.run contextPush).reg .rdi = a.reg .rdi := contextPush_reg a .rdi
  rw [run_contextSave, ← hrdi, Machine.storeRsp_mem] at hctx
  rw [hctx]
  exact contextPush_reg a .rsp

/-- `context_switch` takes the registers and the return address from the new stack. -/
theorem contextLoad_spec {x : SwitchContext} {values : List Word}
    (h : (c.setRsp (c.reg .rsi)).HasTop (x.words ++ values)) :
    (c.run contextLoad).ret.rip = x.rip ∧ (c.run contextLoad).ret.reg .rsp = c.reg .rsi + 72 ∧
    (c.run contextLoad).ret.HasTop values ∧
    ∀ p ∈ x.regs, (c.run contextLoad).ret.reg p.1 = p.2 := by
  have h₁ := h.pop (r := .r15) (by decide)
  have h₂ := h₁.pop (r := .r14) (by decide)
  have h₃ := h₂.pop (r := .r13) (by decide)
  have h₄ := h₃.pop (r := .r12) (by decide)
  have h₅ := h₄.pop (r := .rsi) (by decide)
  have h₆ := h₅.pop (r := .rdi) (by decide)
  have h₇ := h₆.pop (r := .rbp) (by decide)
  have h₈ : (c.run contextLoad).HasTop (x.rip :: values) := h₇.pop (r := .rbx) (by decide)
  refine ⟨h₈.slot_zero, ?_, h₈.ret, fun p hp => ?_⟩
  · simp only [Machine.ret_reg, Machine.run, contextLoad, Machine.exec, List.foldl_cons,
      List.foldl_nil, Machine.popReg_reg, Machine.setRsp_reg, ne_eq, reduceCtorEq,
      not_false_eq_true, Function.update_of_ne, Function.update_self]
    bv_omega
  · simp only [SwitchContext.regs, List.mem_cons, List.not_mem_nil, or_false] at hp
    rcases hp with rfl | rfl | rfl | rfl | rfl | rfl | rfl | rfl <;>
      simp [Machine.run, contextLoad, Machine.exec, h.slot_zero, h₁.slot_zero, h₂.slot_zero,
        h₃.slot_zero, h₄.slot_zero, h₅.slot_zero, h₆.slot_zero, h₇.slot_zero]

/-- The registers that a function keeps are saved. -/
theorem mem_savedContext {r : Reg} (hr : r ∈ calleeSaved ++ [Reg.rsi, .rdi]) :
    (r, a.reg r) ∈ (savedContext a).regs := by
  simp only [calleeSaved, List.cons_append, List.nil_append, List.mem_cons, List.not_mem_nil,
    or_false] at hr
  rcases hr with rfl | rfl | rfl | rfl | rfl | rfl | rfl | rfl <;>
    simp [SwitchContext.regs, savedContext]

/-- A call of `context_switch` obeys the calling convention, and also keeps `rsi` and `rdi`. -/
theorem SwitchCall.sysV (hdepth : depth ≤ 2 ^ 32) (h : SwitchCall depth a b) :
    SysVCall depth a b ∧ b.reg .rsi = a.reg .rsi ∧ b.reg .rdi = a.reg .rdi := by
  obtain ⟨c, hc, rfl⟩ := h
  have htop := hc.hasTop hdepth
  rw [List.range_succ_eq_map, List.map_cons, List.map_map] at htop
  obtain ⟨hrip, hrsp, hslots, hreg⟩ := contextLoad_spec (x := savedContext a) htop
  have hreg' : ∀ r ∈ calleeSaved ++ [Reg.rsi, .rdi], (c.run contextLoad).ret.reg r = a.reg r :=
    fun r hr => hreg (r, a.reg r) (mem_savedContext hr)
  refine ⟨⟨fun r hr => hreg' r (by simp [hr]), ?_, hrip, fun k hk => ?_⟩,
    hreg' .rsi (by simp), hreg' .rdi (by simp)⟩
  · rw [hrsp, hc.rsi]
    bv_omega
  · rw [hslots k (by simpa using hk)]
    simp [List.getD_eq_getElem?_getD, hk]

end Switch

section Interrupts

/-- A handler that obeys the calling convention comes back to the stub with the interrupted
instruction and all general registers restored by `_isr_ret`, if and only if it leaves `rsi`
and `rdi` as it found them. This includes handlers that switch away and are resumed. -/
theorem interrupt_restores_iff (stub : Stub) (m : Machine) (returnTo : Word)
    {body : (ℕ → Machine → Machine → Prop) → Machine → Machine → Prop}
    (hbody : Compiled isrFrameSize body) {b : Machine}
    (hrun : body SwitchCall (enter stub m returnTo) b) :
    b.rip = returnTo ∧
    (((isrRet b).rip = m.rip ∧ ∀ r, (isrRet b).reg r = m.reg r) ↔
      b.reg .rsi = m.reg .rsi ∧ b.reg .rdi = m.reg .rdi) := by
  have hcall := hbody SwitchCall (fun d hd a b h => (h.sysV hd).1) _ b hrun
  have htop := enter_hasTop stub m returnTo
  have hframe : b.HasTop (isrFrame stub m) := by
    intro k hk
    have hk' : k < isrFrameSize := hk
    rw [hcall.kept k hk', htop (k + 1) (by simpa using hk), List.getD_cons_succ]
  obtain ⟨hrip, hreg⟩ := isrRet_spec hframe
  have hsaved : ∀ r ∈ calleeSaved, b.reg r = m.reg r := by
    intro r hr
    rw [hcall.saved r hr]
    apply enter_reg
    rintro rfl
    simp [calleeSaved] at hr
  refine ⟨by rw [hcall.rip, htop.slot_zero], fun ⟨_, hall⟩ => ?_, fun ⟨hrsi, hrdi⟩ => ?_⟩
  · have hrsi := hreg .rsi
    have hrdi := hreg .rdi
    rw [hall] at hrsi hrdi
    exact ⟨hrsi.symm, hrdi.symm⟩
  · refine ⟨hrip, fun r => ?_⟩
    rw [hreg r]
    split_ifs with hr
    · simp only [List.mem_cons, List.not_mem_nil, or_false] at hr
      rcases hr with rfl | rfl | hr
      · exact hrsi
      · exact hrdi
      · exact hsaved r (by simpa [calleeSaved] using hr)
    · rfl

/-- A processor with empty registers, its stack at 64K. -/
def quietMachine : Machine where
  reg r := if r = .rsp then 0x10000 else if r = .rdi then 0x20000 else 0
  rip := 0x1000
  cs := 8
  rflags := 0x202
  ss := 0x10
  mem _ := 0

/-- A handler that writes `rdi` and returns. -/
def writesRdi (_ : ℕ → Machine → Machine → Prop) (a b : Machine) : Prop :=
  b = { a.ret with reg := Function.update a.ret.reg .rdi 1 }

/-- A handler that writes `rdi` obeys the calling convention. -/
theorem compiled_writesRdi : Compiled isrFrameSize writesRdi := by
  rintro callee - a b rfl
  refine ⟨fun r hr => ?_, by simp, rfl, fun k _ => a.slot_ret k⟩
  simp only [calleeSaved, List.mem_cons, List.not_mem_nil, or_false] at hr
  rcases hr with rfl | rfl | rfl | rfl | rfl | rfl <;> simp

/-- An interrupt whose handler writes `rdi` returns with another value in `rdi`. -/
theorem interrupt_loses_rdi :
    Compiled isrFrameSize writesRdi ∧
    ∃ b, writesRdi SwitchCall (enter (.irq 1) quietMachine 0x3000) b ∧
      (isrRet b).reg .rdi ≠ quietMachine.reg .rdi := by
  refine ⟨compiled_writesRdi, _, rfl, ?_⟩
  decide +kernel

/-- A handler that switches away at once and returns when it is switched back to. -/
def switchesAway (callee : ℕ → Machine → Machine → Prop) (a b : Machine) : Prop :=
  ∃ c, callee (isrFrameSize + 1) (a.call 0x4000) c ∧ b = c.ret

/-- A handler that switches away obeys the calling convention. -/
theorem compiled_switchesAway : Compiled isrFrameSize switchesAway := by
  rintro callee hcallee a b ⟨c, hc, rfl⟩
  obtain ⟨hsaved, hrsp, hrip, hkept⟩ := hcallee _ (by decide) _ _ hc
  have hslot : ∀ k < isrFrameSize + 1, c.slot k = a.slot k := by
    intro k hk
    unfold isrFrameSize at hk
    rw [hkept k hk, Machine.call, Machine.slot_pushWord _ _ _ (by omega), if_neg (by omega),
      Nat.add_sub_cancel]
  refine ⟨fun r hr => ?_, ?_, hslot 0 (by decide), fun k hk => ?_⟩
  · have hne : r ≠ .rsp := by
      rintro rfl
      simp [calleeSaved] at hr
    rw [Machine.ret_reg, Function.update_of_ne hne, hsaved r hr, Machine.call,
      Machine.pushWord_reg, Function.update_of_ne hne]
  · rw [Machine.ret_reg, Function.update_self, hrsp, Machine.call, Machine.pushWord_reg,
      Function.update_self]
    bv_omega
  · rw [Machine.slot_ret, hslot (k + 1) (by omega)]

/-- A timer interrupt that switches away, and back to an untouched stack, is not noticed. -/
theorem interrupt_restores_quietMachine :
    ∃ b, switchesAway SwitchCall (enter (.lint 0) quietMachine 0x3000) b ∧
      (isrRet b).rip = quietMachine.rip ∧ ∀ r, (isrRet b).reg r = quietMachine.reg r := by
  let a := (enter (.lint 0) quietMachine 0x3000).call 0x4000
  let c : Machine := { a.run contextSave with
    reg := Function.update (a.run contextSave).reg .rsi ((a.run contextSave).reg .rsp) }
  have hswitch : SwitchCall (isrFrameSize + 1) a (c.run contextLoad).ret :=
    ⟨c, ⟨by decide +kernel, by decide +kernel, fun k _ => rfl⟩, rfl⟩
  have hkeeps := (hswitch.sysV (by decide)).2
  have hiff := (interrupt_restores_iff (.lint 0) quietMachine 0x3000 compiled_switchesAway
    ⟨_, hswitch, rfl⟩).2
  refine ⟨_, ⟨_, hswitch, rfl⟩, hiff.mpr ⟨?_, ?_⟩⟩
  · rw [Machine.ret_reg, Function.update_of_ne (by decide), hkeeps.1]
    decide +kernel
  · rw [Machine.ret_reg, Function.update_of_ne (by decide), hkeeps.2]
    decide +kernel

end Interrupts

end Smor.Isr
