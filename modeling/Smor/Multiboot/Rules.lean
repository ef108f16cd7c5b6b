import Smor.Multiboot.Init

/-!
# Runs that keep to the information block

`boot.S` copies the information block to 4096 bytes behind the start of `boot_info`. A run keeps
to the block if its loads from tags are inside of it and its stores outside. The rules say what
each step of such a run takes and what it changes, for fields of `boot_info` and of tags.
-/

namespace Smor.Multiboot

open Smor.Lib Smor.Vm

/-- `MB2_INFO`, where `boot.S` copies the information block to. -/
def mb2Info : ℕ := 0x0B000

/-- The address of the information block. -/
def blockStart : ℕ := kernelVaddr mb2Info

theorem kernelBootInfo_eq : kernelBootInfo = 0xFFFFFFFF8000A000 := by decide

theorem blockStart_eq : blockStart = kernelBootInfo + 4096 := by decide

/-- The address is in the information block of a size. -/
def InBlock (size k : ℕ) : Prop := blockStart ≤ k ∧ k < blockStart + size

instance decidableInBlock (size k : ℕ) : Decidable (InBlock size k) :=
  inferInstanceAs (Decidable (_ ∧ _))

/-- The `n` bytes from an address on are in the information block. -/
def Within (size a n : ℕ) : Prop := ∀ i < n, InBlock size (u64 (a + i))

instance decidableWithin (size a n : ℕ) : Decidable (Within size a n) :=
  inferInstanceAs (Decidable (∀ i < n, _))

/-- The loads from the block are inside of it. -/
def canLoad (size : ℕ) : Source → ℕ → Prop
  | .bootInfo, _ => True
  | .block, k => InBlock size k

/-- The run keeps to the block: it loads from the block only and stores outside of it. -/
def Inside {α : Type} (size : ℕ) (x : Step α) (mem : Mem) (post : Except Stop α → Mem → Prop) :
    Prop :=
  x.Holds (canLoad size) (fun k => ¬ InBlock size k) post mem

/-- Only bytes of `boot_info` from one offset up to another have changed. -/
def Changes (lo hi : ℕ) (mem mem' : Mem) : Prop :=
  ∀ k, k < kernelBootInfo + lo ∨ kernelBootInfo + hi ≤ k → mem' k = mem k

/-- The block is the same in both memories. -/
def SameBlock (size : ℕ) (mem mem' : Mem) : Prop := ∀ k, InBlock size k → mem' k = mem k

section Fields

variable {size lo hi o w o' w' tag v : ℕ} {mem mem' mem'' : Mem} {f : Field}

theorem u64_lt (x : ℕ) : u64 x < 256 ^ 8 := by
  unfold u64
  exact Nat.mod_lt x (by decide)

theorem u64_add_u64 (x y : ℕ) : u64 (u64 x + y) = u64 (x + y) := by
  unfold u64
  exact Nat.mod_add_mod x (2 ^ 64) y

/-- The addresses of the bytes of `boot_info`. -/
theorem infoField_byte {i : ℕ} (ho : o + w ≤ 4096) (hi : i < w) :
    (infoField o w).byte i = kernelBootInfo + o + i := by
  have hbase := kernelBootInfo_eq
  exact u64_of_lt (by unfold infoField; dsimp only; omega)

/-- `boot_info` is in front of the block. -/
theorem infoField_byte_notMem {i : ℕ} (ho : o + w ≤ 4096) (hi : i < w) :
    ¬ InBlock size ((infoField o w).byte i) := by
  rw [infoField_byte ho hi, InBlock, blockStart_eq]
  omega

/-- The value of a field fits its size. -/
theorem Field.value_lt (f : Field) (mem : Mem) : f.value mem < 256 ^ f.width := number_lt _ _ _

theorem tagField_lt (tag o w : ℕ) (mem : Mem) : (tagField tag o w).value mem < 256 ^ w :=
  Field.value_lt _ mem

/-- The value of a field depends on its bytes. -/
theorem Field.value_congr (h : ∀ i < f.width, mem' (f.byte i) = mem (f.byte i)) :
    f.value mem' = f.value mem := number_congr h

/-- A field that has been stored to. -/
theorem value_put_self (ho : o + w ≤ 4096) (hv : v < 256 ^ w) :
    (infoField o w).value ((infoField o w).put mem v) = v := by
  have hput : (infoField o w).value ((infoField o w).put mem v) = v % 256 ^ w := by
    apply number_putNumber
    intro i hi j hj heq
    rw [infoField_byte ho hi, infoField_byte ho hj] at heq
    omega
  rw [hput, Nat.mod_eq_of_lt hv]

/-- What a store to a field of `boot_info` changes. -/
theorem put_of_outside (ho : o + w ≤ 4096) {k : ℕ}
    (hk : k < kernelBootInfo + o ∨ kernelBootInfo + o + w ≤ k) :
    (infoField o w).put mem v k = mem k := by
  apply putNumber_of_ne
  intro i hi
  have hi' : i < w := hi
  rw [infoField_byte ho hi']
  omega

theorem Changes.refl : Changes lo hi mem mem := fun _ _ => rfl

theorem Changes.trans (h : Changes lo hi mem mem') (h' : Changes lo hi mem' mem'') :
    Changes lo hi mem mem'' := fun k hk => (h' k hk).trans (h k hk)

theorem Changes.mono (h : Changes lo hi mem mem') {lo' hi' : ℕ} (hlo : lo' ≤ lo)
    (hhi : hi ≤ hi') : Changes lo' hi' mem mem' := fun k hk => h k (by omega)

/-- A store to a field in the part that may change. -/
theorem Changes.put (h : Changes lo hi mem mem') (ho : o + w ≤ 4096) (hlo : lo ≤ o)
    (hhi : o + w ≤ hi) : Changes lo hi mem ((infoField o w).put mem' v) := by
  intro k hk
  rw [put_of_outside ho (by omega)]
  exact h k hk

/-- The other fields of `boot_info` have kept their values. -/
theorem Changes.value_info (h : Changes lo hi mem mem') (ho : o + w ≤ 4096)
    (hout : o + w ≤ lo ∨ hi ≤ o) : (infoField o w).value mem' = (infoField o w).value mem := by
  apply Field.value_congr
  intro i hi
  have hi' : i < w := hi
  rw [infoField_byte ho hi']
  exact h _ (by omega)

/-- The block has kept its contents. -/
theorem Changes.block (h : Changes lo hi mem mem') (hhi : hi ≤ 4096) {k : ℕ}
    (hk : InBlock size k) : mem' k = mem k := by
  rw [InBlock, blockStart_eq] at hk
  exact h k (by omega)

theorem SameBlock.symm (h : SameBlock size mem mem') : SameBlock size mem' mem :=
  fun k hk => (h k hk).symm

/-- Stores to `boot_info` do not change the block. -/
theorem Changes.same (h : Changes lo hi mem mem') (hhi : hi ≤ 4096) : SameBlock size mem mem' :=
  fun _ hk => h.block hhi hk

/-- The fields in the block have the same values. -/
theorem SameBlock.value (h : SameBlock size mem mem') (hf : Within size (tag + o) w) :
    (tagField tag o w).value mem' = (tagField tag o w).value mem :=
  Field.value_congr fun i hi => h _ (hf i hi)

/-- Another field of `boot_info` than the one that has been stored to. -/
theorem value_put_ne (ho : o + w ≤ 4096) (ho' : o' + w' ≤ 4096) (hne : o + w ≤ o' ∨ o' + w' ≤ o) :
    (infoField o' w').value ((infoField o w).put mem v) = (infoField o' w').value mem :=
  (Changes.refl.put ho (le_refl o) (le_refl _)).value_info ho' (by omega)

/-- A field in the block, after a store to `boot_info`. -/
theorem value_put_tag (ho' : o' + w' ≤ 4096) (hf : Within size (tag + o) w) :
    (tagField tag o w).value ((infoField o' w').put mem v) = (tagField tag o w).value mem :=
  ((Changes.refl.put ho' (le_refl o') (le_refl _)).same ho').value hf

theorem Within.sub {a n : ℕ} (h : Within size a n) (m : ℕ) {n' : ℕ} (hle : m + n' ≤ n) :
    Within size (a + m) n' := by
  intro i hi
  rw [Nat.add_assoc]
  exact h (m + i) (by omega)

end Fields

section Rules

variable {α β : Type} {size : ℕ} {mem : Mem} {post post' : Except Stop α → Mem → Prop}

theorem inside_stop {e : Stop} :
    Inside size (.stop e : Step α) mem post ↔ post (.error e) mem := Iff.rfl

/-- A load from the block. -/
theorem inside_load {f : Field} {g : ℕ → Step α} :
    Inside size ((f.load .block).bind g) mem post ↔
      Within size f.addr f.width ∧ Inside size (g (f.value mem)) mem post := by
  rw [Inside, Accessing.holds_bind, Field.load, Accessing.holds_loadNumber]
  rfl

/-- A load from `boot_info`. -/
theorem inside_loadInfo {f : Field} {g : ℕ → Step α} :
    Inside size ((f.load .bootInfo).bind g) mem post ↔ Inside size (g (f.value mem)) mem post := by
  rw [Inside, Accessing.holds_bind, Field.load, Accessing.holds_loadNumber]
  exact and_iff_right fun _ _ => trivial

/-- A store. -/
theorem inside_store {f : Field} {v : ℕ} {g : Unit → Step α} :
    Inside size ((f.store v).bind g) mem post ↔
      (∀ i < f.width, ¬ InBlock size (f.byte i)) ∧ Inside size (g ()) (f.put mem v) post := by
  rw [Inside, Accessing.holds_bind, Field.store, Accessing.holds_storeNumber]
  rfl

/-- A store at the end. -/
theorem inside_storeLast {f : Field} {v : ℕ} {post : Except Stop Unit → Mem → Prop} :
    Inside size (f.store v) mem post ↔
      (∀ i < f.width, ¬ InBlock size (f.byte i)) ∧ post (.ok ()) (f.put mem v) := by
  rw [Inside, Field.store, Accessing.holds_storeNumber]
  rfl

/-- A store to a field of `boot_info`. -/
theorem inside_storeInfo {o w v : ℕ} {g : Unit → Step α} (ho : o + w ≤ 4096) :
    Inside size (((infoField o w).store v).bind g) mem post ↔
      Inside size (g ()) ((infoField o w).put mem v) post := by
  rw [inside_store]
  exact and_iff_right fun i hi => infoField_byte_notMem ho hi

/-- A store to a field of `boot_info` at the end. -/
theorem inside_storeInfoLast {o w v : ℕ} {post : Except Stop Unit → Mem → Prop}
    (ho : o + w ≤ 4096) :
    Inside size ((infoField o w).store v) mem post ↔
      post (.ok ()) ((infoField o w).put mem v) := by
  rw [inside_storeLast]
  exact and_iff_right fun i hi => infoField_byte_notMem ho hi

/-- One computation after the other, where it is known what the first one does. -/
theorem inside_bind_ok {x : Step β} {f : β → Step α} {b : β} {mem' : Mem}
    (hx : Inside size x mem fun r mem'' => r = .ok b ∧ mem'' = mem') :
    Inside size (x.bind f) mem post ↔ Inside size (f b) mem' post := by
  obtain ⟨hloads, hstores, hb, hmem⟩ := Accessing.holds_iff.mp hx
  rw [Inside, Accessing.holds_bind, Accessing.holds_iff, hb, hmem]
  exact ⟨fun h => h.2.2, fun h => ⟨hloads, hstores, h⟩⟩

end Rules

end Smor.Multiboot
