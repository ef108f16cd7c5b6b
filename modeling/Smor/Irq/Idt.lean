import Smor.Lib.Packed
import Smor.Lib.Machine
import Smor.Types
import Smor.Vm.Boot

/-!
# The interrupt descriptor table

The table is a page of memory with 256 records of 16 bytes, in which the address of a handler is
spread over three fields. `idt_set` writes one record. What the processor reads back is a map from
vectors to gates: `idt_set` changes it at one vector, and `idt_init` sets all of it.
-/

namespace Smor.Irq

open Smor.Lib Smor.Vm

/-- `IDT_TABLE`. -/
def idtTable : ℕ := kernelBase ||| 0x0F000

/-- The address of an entry of the table. -/
def idtEntryAddr (index : ℕ) : ℕ := idtTable + 16 * index

/-- `idt_set`. -/
def idtSet (mem : ℕ → BitVec 8) (index type handler : ℕ) : ℕ → BitVec 8 :=
  putFields mem (idtEntryAddr index)
    [(2, u16 handler), (2, 0x08), (2, type), (2, u16 (handler >>> 16)), (4, u32 (handler >>> 32)),
      (4, 0)]

/-- `IDT_INTERRUPT_GATE`. -/
def idtInterruptGate : ℕ := 0x8e00

/-- `IDT_TRAP_GATE`. -/
def idtTrapGate : ℕ := 0x8f00

/-- A gate as the processor takes it from the table. -/
structure IdtGate where
  offset : ℕ
  selector : ℕ
  type : ℕ
  deriving DecidableEq

/-- The gate of a vector. -/
def idtGate (mem : ℕ → BitVec 8) (vector : ℕ) : IdtGate :=
  let field := fun off size => number mem (idtEntryAddr vector + off + ·) size
  { offset := field 0 2 + 2 ^ 16 * field 6 2 + 2 ^ 32 * field 8 4
    selector := field 2 2
    type := field 4 2 }

/-- The kind of a gate that is present. -/
def IdtGate.kind (g : IdtGate) : Option Gate :=
  if g.type / 2 ^ 15 % 2 = 0 then none
  else if g.type / 2 ^ 8 % 2 ^ 4 = 0xe then some .interrupt
  else if g.type / 2 ^ 8 % 2 ^ 4 = 0xf then some .trap
  else none

/-- The handlers of `isr.S`. -/
inductive IsrLabel
  | trap (num : ℕ)
  | irq (num : ℕ)
  | lint (num : ℕ)
  /-- `_isr_spurious`. -/
  | spurious
  deriving DecidableEq

/-- The exceptions that have a handler. -/
def trapNums : List ℕ := List.range 15 ++ [16, 17, 18, 19, 20, 30]

/-- The handlers that are there. -/
def isrLabels : List IsrLabel :=
  .spurious :: (trapNums.map .trap ++ (List.range 16).map .irq ++ (List.range 9).map .lint)

/-- Where the linker has put the handlers. -/
structure IsrCode where
  addr : IsrLabel → ℕ
  addr_lt : ∀ l, addr l < 2 ^ 64
  addr_inj : ∀ l ∈ isrLabels, ∀ l' ∈ isrLabels, addr l = addr l' → l = l'

/-- `cpu_exceptions`. -/
def cpuExceptions : List IsrLabel :=
  (List.range 15).map .trap ++ [.spurious] ++ [16, 17, 18, 19, 20].map .trap ++
    List.replicate 9 .spurious ++ [.trap 30, .spurious]

/-- `idt_init`, without the last step, which gives the table to the processor. -/
def idtInit (code : IsrCode) (mem : ℕ → BitVec 8) : ℕ → BitVec 8 :=
  let mem := (List.range 32).foldl (fun mem i =>
    idtSet mem i idtTrapGate (code.addr (cpuExceptions.getD i .spurious))) mem
  (List.range' 32 (256 - 32)).foldl (fun mem i =>
    idtSet mem i idtInterruptGate (code.addr .spurious)) mem

/-- `idt_desc.limit`. -/
def idtLimit : ℕ := 256 * 16 - 1

/-- What `idt_init` puts in the entry of a vector. -/
def IsrCode.initGate (code : IsrCode) (vector : ℕ) : IdtGate :=
  if vector < 32 then ⟨code.addr (cpuExceptions.getD vector .spurious), 0x08, idtTrapGate⟩
  else ⟨code.addr .spurious, 0x08, idtInterruptGate⟩

theorem IdtGate.kind_interrupt (offset : ℕ) :
    (IdtGate.mk offset 0x08 idtInterruptGate).kind = some .interrupt := by
  simp [IdtGate.kind, idtInterruptGate]

section Gates

variable {mem mem' : ℕ → BitVec 8} {i v type handler : ℕ} {code : IsrCode}

/-- The fields of the gate of a vector. -/
theorem fieldsAt_idtEntry (mem : ℕ → BitVec 8) (v : ℕ) :
    ∃ o₀ o₁ o₂ r, fieldsAt mem (idtEntryAddr v) [2, 2, 2, 2, 4, 4] =
      [o₀, (idtGate mem v).selector, (idtGate mem v).type, o₁, o₂, r] ∧
      (idtGate mem v).offset = o₀ + 2 ^ 16 * o₁ + 2 ^ 32 * o₂ := by
  exact ⟨_, _, _, _, rfl, rfl⟩

/-- A gate depends on the bytes of its entry. -/
theorem idtGate_congr (h : ∀ k, idtEntryAddr v ≤ k → k < idtEntryAddr v + 16 → mem' k = mem k) :
    idtGate mem' v = idtGate mem v := by
  obtain ⟨o₀, o₁, o₂, r, hfields, hoffset⟩ := fieldsAt_idtEntry mem v
  obtain ⟨o₀', o₁', o₂', r', hfields', hoffset'⟩ := fieldsAt_idtEntry mem' v
  rw [fieldsAt_congr h, hfields] at hfields'
  simp only [List.cons.injEq, and_true] at hfields'
  obtain ⟨rfl, hselector, htype, rfl, rfl, -⟩ := hfields'
  cases hg : idtGate mem v
  cases hg' : idtGate mem' v
  simp only [hg, hg'] at hoffset hoffset' hselector htype
  rw [hoffset, hoffset', hselector, htype]

/-- The three parts of the address of a handler. -/
theorem handler_parts (h : handler < 2 ^ 64) :
    u16 handler % 256 ^ 2 + 2 ^ 16 * (u16 (handler >>> 16) % 256 ^ 2) +
      2 ^ 32 * (u32 (handler >>> 32) % 256 ^ 4) = handler := by
  unfold u16 u32
  simp only [Nat.shiftRight_eq_div_pow]
  omega

/-- The entry that `idt_set` has written. -/
theorem idtGate_idtSet_self (htype : type < 2 ^ 16) (hhandler : handler < 2 ^ 64) :
    idtGate (idtSet mem i type handler) i = ⟨handler, 0x08, type⟩ := by
  obtain ⟨o₀, o₁, o₂, r, hfields, hoffset⟩ := fieldsAt_idtEntry (idtSet mem i type handler) i
  have hput := fieldsAt_putFields mem (idtEntryAddr i)
    [(2, u16 handler), (2, 0x08), (2, type), (2, u16 (handler >>> 16)), (4, u32 (handler >>> 32)),
      (4, 0)]
  have heq := hput.symm.trans hfields
  simp only [List.map_cons, List.map_nil, List.cons.injEq, and_true] at heq
  obtain ⟨rfl, hselector, hty, rfl, rfl, -⟩ := heq
  rw [handler_parts hhandler] at hoffset
  cases hg : idtGate (idtSet mem i type handler) i
  simp only [hg] at hoffset hselector hty
  rw [hoffset, ← hselector, ← hty]
  simp only [IdtGate.mk.injEq, true_and]
  omega

/-- Bytes outside of the entry. -/
theorem idtSet_outside {k : ℕ} (h : k < idtEntryAddr i ∨ idtEntryAddr i + 16 ≤ k) :
    idtSet mem i type handler k = mem k := putFields_outside h

/-- The other entries. -/
theorem idtGate_idtSet_of_ne (hne : v ≠ i) :
    idtGate (idtSet mem i type handler) v = idtGate mem v := by
  refine idtGate_congr fun k hlow hhigh => idtSet_outside ?_
  unfold idtEntryAddr at hlow hhigh ⊢
  omega

/-- The table as a map from vectors to gates. -/
theorem idtGate_idtSet (htype : type < 2 ^ 16) (hhandler : handler < 2 ^ 64) :
    idtGate (idtSet mem i type handler) =
      Function.update (idtGate mem) i ⟨handler, 0x08, type⟩ := by
  funext v
  by_cases heq : v = i
  · subst heq
    rw [Function.update_self, idtGate_idtSet_self htype hhandler]
  · rw [Function.update_of_ne heq, idtGate_idtSet_of_ne heq]

/-- A loop over entries. -/
theorem idtGate_foldl (code : IsrCode) (vectors : List ℕ) {type : ℕ} (htype : type < 2 ^ 16)
    (f : ℕ → IsrLabel) (mem : ℕ → BitVec 8) :
    (∀ v, idtGate (vectors.foldl (fun mem i => idtSet mem i type (code.addr (f i))) mem) v =
      if v ∈ vectors then ⟨code.addr (f v), 0x08, type⟩ else idtGate mem v) ∧
      ∀ k, (∀ i ∈ vectors, k < idtEntryAddr i ∨ idtEntryAddr i + 16 ≤ k) →
        vectors.foldl (fun mem i => idtSet mem i type (code.addr (f i))) mem k = mem k := by
  induction vectors generalizing mem with
  | nil => simp
  | cons i vectors ih =>
    rw [List.foldl_cons]
    obtain ⟨hgates, hbytes⟩ := ih (idtSet mem i type (code.addr (f i)))
    refine ⟨fun v => ?_, fun k hk => ?_⟩
    · rw [hgates v, idtGate_idtSet htype (code.addr_lt _)]
      by_cases hv : v ∈ vectors
      · simp [hv]
      · by_cases heq : v = i
        · simp [heq]
        · simp [hv, heq]
    · rw [hbytes k fun j hj => hk j (List.mem_cons_of_mem _ hj)]
      exact idtSet_outside (hk i List.mem_cons_self)

/-- The entry of `cpu_exceptions` for a number that is in use, and for the others. -/
theorem cpuExceptions_getD (hv : v < 32) :
    cpuExceptions.getD v .spurious = if v ∈ trapNums then .trap v else .spurious := by
  have hall : ∀ n : Fin 32,
      cpuExceptions.getD n .spurious = if n.val ∈ trapNums then .trap n else .spurious := by decide
  exact hall ⟨v, hv⟩

/-- The gate of a vector after `idt_init`. -/
theorem idtGate_idtInit (code : IsrCode) (mem : ℕ → BitVec 8) (hv : v < 256) :
    idtGate (idtInit code mem) v = code.initGate v := by
  rw [idtInit, (idtGate_foldl code _ (by decide) (fun _ => .spurious) _).1,
    (idtGate_foldl code _ (by decide) (fun i => cpuExceptions.getD i .spurious) mem).1,
    IsrCode.initGate]
  simp only [List.mem_range'_1, List.mem_range]
  by_cases hlow : v < 32
  · rw [if_neg (by omega), if_pos hlow, if_pos hlow]
  · rw [if_pos (by omega), if_neg hlow]

/-- After `idt_init` all 256 vectors have the gates of the exceptions and of spurious interrupts,
whatever was in memory, and bytes behind the limit of the table are as before. An exception has the
handler of its own number, if that is in use. -/
theorem idtInit_spec (code : IsrCode) (mem : ℕ → BitVec 8) :
    (∀ v < 256, idtGate (idtInit code mem) v = code.initGate v) ∧
      (∀ v < 32, idtGate (idtInit code mem) v =
        ⟨code.addr (if v ∈ trapNums then .trap v else .spurious), 0x08, idtTrapGate⟩) ∧
      ∀ k, (k < idtTable ∨ idtTable + idtLimit < k) → idtInit code mem k = mem k := by
  refine ⟨fun v hv => idtGate_idtInit code mem hv, fun v hv => ?_, fun k hk => ?_⟩
  · rw [idtGate_idtInit code mem (by omega), IsrCode.initGate, if_pos hv, cpuExceptions_getD hv]
  · rw [idtInit, (idtGate_foldl code _ (by decide) (fun _ => .spurious) _).2,
      (idtGate_foldl code _ (by decide) (fun i => cpuExceptions.getD i .spurious) mem).2]
    · intro i hi
      rw [List.mem_range] at hi
      unfold idtEntryAddr
      unfold idtLimit at hk
      omega
    · intro i hi
      rw [List.mem_range'_1] at hi
      unfold idtEntryAddr
      unfold idtLimit at hk
      omega

end Gates

end Smor.Irq
