import Mygo.Compiler.Codegen

namespace Mygo

open ByteMemory

theorem stackTop_type (k : Int) : stackTop k &&& TypePart = STACK_TOP := base_type (by decide) _

theorem stackTop_natCast {k : Nat} (h : k < 2 ^ 56) :
    stackTop k &&& OffsetPart = BitVec.ofNat 64 k := by
  rw [stackTop, base_offset (by decide), BitVec.ofInt_natCast]
  apply BitVec.eq_of_toNat_eq
  rw [toNat_offset, BitVec.toNat_ofNat]
  omega

def SlotFits (k : Int) (n : Nat) : Prop := 0 ≤ k ∧ k + n ≤ MAX_STACK

instance (k : Int) (n : Nat) : Decidable (SlotFits k n) := inferInstanceAs (Decidable (_ ∧ _))

def IsInt (k : Int) : Prop := -2 ^ 31 ≤ k ∧ k < 2 ^ 31

instance (k : Int) : Decidable (IsInt k) := inferInstanceAs (Decidable (_ ∧ _))

theorem isInt_i32 (x : Int) : IsInt (i32 x) := by
  unfold i32 IsInt
  rw [Int.bmod_def]
  split <;> omega

theorem i32_of_isInt {x : Int} (h : IsInt x) : i32 x = x := by
  unfold IsInt at h
  rw [i32, Int.bmod_def]
  split <;> omega

theorem i32u64_word (x : Int) : (i32u64 x).setWidth 32 = BitVec.ofInt 32 x := by
  rw [i32u64, BitVec.setWidth_setWidth_of_le _ (by decide), BitVec.setWidth_eq]

namespace ByteCodeVM

variable {vm : ByteCodeVM} {F : FloatOps}

/-- The registers stay as `Init` sets them. -/
def Flat (vm : ByteCodeVM) : Prop := vm.stack_top_ = 0 ∧ vm.finished_ = false

def after (vm : ByteCodeVM) (n : Nat) (m : Mem) : ByteCodeVM :=
  { vm with pc_ := vm.pc_ + n, stack_ := m }

@[simp] theorem after_after (vm : ByteCodeVM) (n n' : Nat) (m m' : Mem) :
    (vm.after n m).after n' m' = vm.after (n + n') m' := by
  simp [after, Nat.add_assoc]

@[simp] theorem after_zero (vm : ByteCodeVM) : vm.after 0 vm.stack_ = vm := rfl

@[simp] theorem stack_after (vm : ByteCodeVM) (n : Nat) (m : Mem) : (vm.after n m).stack_ = m := rfl

@[simp] theorem out_after (vm : ByteCodeVM) (n : Nat) (m : Mem) : (vm.after n m).out = vm.out := rfl

theorem Flat.after (h : vm.Flat) (n : Nat) (m : Mem) : (vm.after n m).Flat := h

theorem access_slot (flat : vm.Flat) {k n : Nat} (h : k + n ≤ MAX_STACK) :
    vm.access (stackTop k) n = .ok k := by
  have small : k < 2 ^ 56 := by
    unfold MAX_STACK at h
    omega
  have index : (BitVec.ofNat 64 k).toNat = k := by
    rw [BitVec.toNat_ofNat]
    omega
  rw [access, transAddr, if_pos (stackTop_type k), flat.1, stackTop_natCast small]
  simp [index, h]

theorem access_outside (flat : vm.Flat) {k : Int} {n : Nat} (int : IsInt k)
    (h : ¬ SlotFits k n) : vm.access (stackTop k) n = .error .stack := by
  have offset : (stackTop k &&& OffsetPart).toNat = (k % 2 ^ 56).toNat := by
    rw [stackTop, base_offset (by decide), toNat_offset]
    unfold IsInt at int
    have word : (BitVec.ofInt 64 k).toNat = (k % 2 ^ 64).toNat := by simp [BitVec.toNat_ofInt]
    rw [word]
    omega
  have outside : ¬ (0 + (stackTop k &&& OffsetPart)).toNat + n ≤ MAX_STACK := by
    rw [show (0 : Address) + (stackTop k &&& OffsetPart) = _ from BitVec.zero_add _, offset]
    unfold SlotFits MAX_STACK at *
    unfold IsInt at int
    omega
  rw [access, transAddr, if_pos (stackTop_type k), flat.1]
  exact if_neg outside

theorem load_slot (flat : vm.Flat) {k w : Nat} (h : k + w / 8 ≤ MAX_STACK) :
    vm.load (stackTop k) w = .ok (vm.stack_.load w k) := by
  rw [load, access_slot flat h]

theorem put_slot (flat : vm.Flat) {k w : Nat} (h : k + w / 8 ≤ MAX_STACK) (v : BitVec w) :
    vm.put (stackTop k) v = .ok (vm.after 1 (vm.stack_.store k v)) := by
  rw [put, store, access_slot flat h]
  rfl

theorem exec_set32 (flat : vm.Flat) {k : Nat} (h : k + 4 ≤ MAX_STACK) (x a2 : Address) :
    exec F ⟨.Set32, stackTop k, x, a2⟩ vm =
      .ok (vm.after 1 (vm.stack_.store k (x.setWidth 32))) :=
  put_slot flat (by exact h) _

theorem exec_arith (flat : vm.Flat) {k l j : Nat} (hk : k + 4 ≤ MAX_STACK)
    (hl : l + 4 ≤ MAX_STACK) (hj : j + 4 ≤ MAX_STACK) (op : BinOp) :
    exec F ⟨.case1 op .I32, stackTop k, stackTop l, stackTop j⟩ vm =
      match arithInt op (vm.stack_.load 32 l) (vm.stack_.load 32 j) with
      | .ok v => .ok (vm.after 1 (vm.stack_.store k v))
      | .error e => .error e := by
  have left : vm.load (stackTop l) 32 = .ok (vm.stack_.load 32 l) := load_slot flat (by exact hl)
  have right : vm.load (stackTop j) 32 = .ok (vm.stack_.load 32 j) := load_slot flat (by exact hj)
  simp only [exec, InsType.width, left, right, FloatOps.arith]
  cases arithInt op (vm.stack_.load 32 l) (vm.stack_.load 32 j) with
  | ok v => exact put_slot flat (by exact hk) v
  | error e => rfl

theorem exec_negate (flat : vm.Flat) {k : Nat} (h : k + 4 ≤ MAX_STACK) (a2 : Address) :
    exec F ⟨.MulI32D, stackTop k, i32u64 (-1), a2⟩ vm =
      .ok (vm.after 1 (vm.stack_.store k (-vm.stack_.load 32 k))) := by
  have operand : vm.load (stackTop k) 32 = .ok (vm.stack_.load 32 k) := load_slot flat (by exact h)
  have minusOne : (i32u64 (-1)).setWidth 32 = (-1 : BitVec 32) := by decide
  have negated : vm.stack_.load 32 k * (-1 : BitVec 32) = -vm.stack_.load 32 k := by
    rw [BitVec.mul_neg]
    exact congrArg (- ·) (BitVec.mul_one _)
  simp only [exec, InsType.width, operand, FloatOps.arith, arithInt, minusOne, negated]
  exact put_slot flat (by exact h) _

theorem exec_move (flat : vm.Flat) {k l : Nat} (hk : k < MAX_STACK) (hl : l < MAX_STACK)
    (a2 : Address) :
    exec F ⟨.Move, stackTop k, stackTop l, a2⟩ vm =
      .ok (vm.after 1 (Function.update vm.stack_ k (vm.stack_ l))) := by
  have operand : vm.load (stackTop l) 8 = .ok (vm.stack_ l) := by
    rw [← load_byte vm.stack_ l]
    exact load_slot flat hl
  simp only [exec, operand]
  rw [put_slot flat (by exact hk), store_byte]

theorem exec_moves (flat : vm.Flat) {dst src n : Nat} (h : dst + n ≤ src)
    (inside : src + n ≤ MAX_STACK) :
    (interp F).execList (Compiler.moveCode dst src n) vm =
      .ok (vm.after n (vm.stack_.copy dst src n)) := by
  rw [Compiler.moveCode, Int.toNat_natCast]
  induction n with
  | zero =>
    rw [copy_zero]
    rfl
  | succ n ih =>
    have small : ∀ k : Nat, k ≤ src → i32 (k + n) = ↑(k + n) := fun k hk => i32_of_isInt (by
      unfold IsInt
      unfold MAX_STACK at inside
      omega)
    rw [List.range_succ, List.map_append, Interp.execList_append, ih (by omega) (by omega)]
    simp only [List.map_cons, List.map_nil, Interp.execList, interp,
      small dst (by omega), small src (Nat.le_refl _)]
    rw [exec_move (flat.after _ _) (by omega) (by omega), copy_succ _ _ _ _ (by omega)]
    simp only [after_after, stack_after]

theorem exec_print (flat : vm.Flat) {k : Nat} (h : k + 4 ≤ MAX_STACK) (a2 : Address) :
    exec F ⟨.Call, SC_PRINT_I32, stackTop k, a2⟩ vm =
      .ok ((vm.print (.I32 (vm.stack_.load 32 k))).after 1 vm.stack_) := by
  have operand : vm.load (stackTop k) 32 = .ok (vm.stack_.load 32 k) := load_slot flat (by exact h)
  have builtin : ¬ SC_PRINT_I32 < BUILT_IN_START := by decide
  have first : SC_PRINT_I32 ≠ SC_PRINT_I8 := by decide
  simp only [exec, if_neg builtin, ByteCodeVM.builtin, if_neg first, if_true, operand]
  rfl

end ByteCodeVM

end Mygo
