import Mygo.Vm.Machine

namespace Mygo

open ByteMemory

/-- The bytes an instruction stores, as an address and how many.  `Return` stores where its caller
has asked. -/
def Instruction.writes (i : Instruction) : Option (Address × Nat) :=
  match i.op with
  | .Move => some (i.arg0, 1)
  | .Set8 => some (i.arg0, 1)
  | .Set32 => some (i.arg0, 4)
  | .Set64 => some (i.arg0, 8)
  | .SavePC => some (i.arg0, 8)
  | .case1 _ ty => some (i.arg0, ty.width / 8)
  | .case2 _ ty => some (i.arg0, ty.width / 8)
  | .toI32 _ => some (i.arg0, 4)
  | .toF32 _ => some (i.arg0, 4)
  | .SetStackBottom | .jump _ _ | .Call | .Return | .Label => none

/-- How many bytes a system call prints, of a string the first at least. -/
def printSize (call : Address) : Nat :=
  if call = SC_PRINT_I8 ∨ call = SC_PRINT_STR then 1
  else if call = SC_PRINT_I32 ∨ call = SC_PRINT_F32 then 4
  else if call = SC_PRINT_I64 ∨ call = SC_PRINT_F64 then 8
  else 0

def Instruction.reads (i : Instruction) : List (Address × Nat) :=
  match i.op with
  | .Move => [(i.arg1, 1)]
  | .case1 _ ty => [(i.arg1, ty.width / 8), (i.arg2, ty.width / 8)]
  | .case2 _ ty => [(i.arg0, ty.width / 8)]
  | .jump _ ty => [(i.arg0, ty.width / 8), (i.arg1, ty.width / 8), (i.arg2, 8)]
  | .toI32 ty | .toF32 ty => [(i.arg1, ty.width / 8)]
  | .Call => [(i.arg1, printSize i.arg0)]
  | .Return => [(i.arg0, i.arg1.toNat)]
  | .Set8 | .Set32 | .Set64 | .SetStackBottom | .SavePC | .Label => []

def span (addr : Address) (n : Nat) : List Address := (List.range n).map fun k => addr + BitVec.ofNat 64 k

def Instruction.readCells (i : Instruction) : List Address := i.reads.flatMap fun r => span r.1 r.2

def Instruction.writtenCells (i : Instruction) : List Address :=
  i.writes.toList.flatMap fun r => span r.1 r.2

namespace ByteCodeVM

variable {F : FloatOps} {vm vm' : ByteCodeVM} {i : Instruction} {j : Nat}

def Misses (vm : ByteCodeVM) (addr : Address) (n j : Nat) : Prop :=
  ∀ k, vm.access addr n = .ok k → j < k ∨ k + n ≤ j

theorem put_frame {addr : Address} {w : Nat} {v : BitVec w} (h : vm.put addr v = .ok vm')
    (misses : vm.Misses addr (w / 8) j) : vm'.stack_ j = vm.stack_ j := by
  unfold put store at h
  split at h
  · next u hu =>
    cases h
    split at hu
    · next k hk =>
      cases hu
      exact store_of_outside _ _ _ _ (misses k hk)
    · cases hu
  · cases h

theorem builtin_frame {call arg1 : Address} (h : vm.builtin call arg1 = .ok vm') :
    vm'.stack_ = vm.stack_ := by
  unfold builtin at h
  repeat' split at h
  all_goals cases h
  all_goals rfl

/-- An instruction other than `Return` changes the bytes it writes and no others. -/
theorem exec_frame (h : exec F i vm = .ok vm') (stays : i.op ≠ .Return)
    (misses : ∀ addr n, i.writes = some (addr, n) → vm.Misses addr n j) :
    vm'.stack_ j = vm.stack_ j := by
  obtain ⟨op, arg0, arg1, arg2⟩ := i
  cases op with
  | Move =>
    simp only [exec] at h
    split at h
    · exact put_frame h (misses _ _ rfl)
    · cases h
  | Set8 | Set32 | Set64 | SavePC => exact put_frame h (misses _ _ rfl)
  | SetStackBottom =>
    cases h
    rfl
  | case1 op ty =>
    simp only [exec] at h
    split at h
    · split at h
      · exact put_frame h (misses _ _ rfl)
      · cases h
    · cases h
    · cases h
  | case2 op ty =>
    simp only [exec] at h
    split at h
    · split at h
      · exact put_frame h (misses _ _ rfl)
      · cases h
    · cases h
  | jump op ty =>
    simp only [exec] at h
    split at h
    · split at h
      · split at h
        · cases h
          rfl
        · cases h
      · cases h
        rfl
    · cases h
    · cases h
  | toI32 ty =>
    simp only [exec] at h
    split at h
    · exact put_frame h (misses _ _ rfl)
    · cases h
  | toF32 ty =>
    simp only [exec] at h
    split at h
    · exact put_frame h (misses _ _ rfl)
    · cases h
  | Call =>
    simp only [exec] at h
    split at h
    · cases h
      rfl
    · split at h
      · next u hu =>
        cases h
        exact congrFun (builtin_frame hu) j
      · cases h
  | Return => exact absurd rfl stays
  | Label => cases h

def withStack (vm : ByteCodeVM) (m : Mem) : ByteCodeVM := { vm with stack_ := m }

def Shares (vm : ByteCodeVM) (m : Mem) (r : Address × Nat) : Prop :=
  ∀ k, vm.access r.1 r.2 = .ok k → ∀ j, k ≤ j → j < k + r.2 → m j = vm.stack_ j

def Parallel (vm vm' : ByteCodeVM) (m : Mem) (r : Except Fault ByteCodeVM) : Prop :=
  ∃ m', r = .ok (vm'.withStack m') ∧ ∀ j, m' j = vm'.stack_ j ∨ m' j = m j ∧ vm'.stack_ j = vm.stack_ j

variable {m : Mem}

theorem load_shared {addr : Address} {w : Nat} (shares : vm.Shares m (addr, w / 8)) :
    (vm.withStack m).load addr w = vm.load addr w := by
  have same : (vm.withStack m).access addr (w / 8) = vm.access addr (w / 8) := rfl
  unfold load
  rw [same]
  split
  · next k accessed => exact congrArg Except.ok (load_congr (shares k accessed))
  · rfl

theorem put_parallel {addr : Address} {w : Nat} {v : BitVec w} (h : vm.put addr v = .ok vm') :
    Parallel vm vm' m ((vm.withStack m).put addr v) := by
  have same : (vm.withStack m).access addr (w / 8) = vm.access addr (w / 8) := rfl
  unfold put store at *
  rw [same]
  split at h
  · next u stored =>
    cases h
    split at stored
    · next k accessed =>
      cases stored
      refine ⟨m.store k v, rfl, fun j => ?_⟩
      by_cases inside : k ≤ j ∧ j < k + w / 8
      · have part : j - k < (toBytes (w / 8) v.toNat).length := by
          rw [length_toBytes]
          omega
        have byte : ∀ m : Mem, m.store k v j = (toBytes (w / 8) v.toNat)[j - k] := by
          intro m
          have found := write_getElem m k (toBytes (w / 8) v.toNat) (j - k) part
          rwa [Nat.add_sub_cancel' inside.1] at found
        exact .inl ((byte m).trans (byte vm.stack_).symm)
      · have outside : j < k ∨ k + w / 8 ≤ j := by omega
        exact .inr ⟨store_of_outside m k v j outside, store_of_outside vm.stack_ k v j outside⟩
    · cases stored
  · cases h

theorem same_parallel (h : vm'.stack_ = vm.stack_) : Parallel vm vm' m (.ok (vm'.withStack m)) :=
  ⟨m, rfl, fun j => .inr ⟨rfl, congrFun h j⟩⟩

theorem builtin_parallel {call arg1 : Address} (h : vm.builtin call arg1 = .ok vm') (text : call ≠ SC_PRINT_STR)
    (shares : vm.Shares m (arg1, printSize call)) :
    (vm.withStack m).builtin call arg1 = .ok (vm'.withStack m) := by
  have loads : ∀ {w}, printSize call = w / 8 → (vm.withStack m).load arg1 w = vm.load arg1 w :=
    fun same => load_shared (same ▸ shares)
  unfold builtin at *
  split at h
  · next same =>
    rw [if_pos same, loads (by rw [same]; decide)]
    split at h
    · cases h
      rfl
    · cases h
  · next i8 =>
    rw [if_neg i8]
    split at h
    · next same =>
      rw [if_pos same, loads (by rw [same]; decide)]
      split at h
      · cases h
        rfl
      · cases h
    · next i32 =>
      rw [if_neg i32]
      split at h
      · next same =>
        rw [if_pos same, loads (by rw [same]; decide)]
        split at h
        · cases h
          rfl
        · cases h
      · next i64 =>
        rw [if_neg i64]
        split at h
        · next same =>
          rw [if_pos same, loads (by rw [same]; decide)]
          split at h
          · cases h
            rfl
          · cases h
        · next f32 =>
          rw [if_neg f32]
          split at h
          · next same =>
            rw [if_pos same, loads (by rw [same]; decide)]
            split at h
            · cases h
              rfl
            · cases h
          · next f64 =>
            rw [if_neg f64]
            cases h

/-- An instruction depends on the bytes it reads and no others. -/
theorem exec_parallel (h : exec F i vm = .ok vm') (stays : i.op ≠ .Return)
    (text : i.op = .Call → i.arg0 ≠ SC_PRINT_STR) (shares : ∀ r ∈ i.reads, vm.Shares m r) :
    Parallel vm vm' m (exec F i (vm.withStack m)) := by
  obtain ⟨op, arg0, arg1, arg2⟩ := i
  cases op with
  | Move =>
    have operand : (vm.withStack m).load arg1 8 = vm.load arg1 8 := load_shared (shares _ (.head _))
    simp only [exec, operand] at h ⊢
    split at h
    · exact put_parallel h
    · cases h
  | Set8 | Set32 | Set64 | SavePC => exact put_parallel h
  | SetStackBottom =>
    cases h
    exact same_parallel rfl
  | case1 op ty =>
    have left : (vm.withStack m).load arg1 ty.width = vm.load arg1 ty.width := load_shared (shares _ (.head _))
    have right : (vm.withStack m).load arg2 ty.width = vm.load arg2 ty.width :=
      load_shared (shares _ (.tail _ (.head _)))
    simp only [exec, left, right] at h ⊢
    split at h
    · split at h
      · exact put_parallel h
      · cases h
    · cases h
    · cases h
  | case2 op ty =>
    have operand : (vm.withStack m).load arg0 ty.width = vm.load arg0 ty.width :=
      load_shared (shares _ (.head _))
    simp only [exec, operand] at h ⊢
    split at h
    · split at h
      · exact put_parallel h
      · cases h
    · cases h
  | jump op ty =>
    have left : (vm.withStack m).load arg0 ty.width = vm.load arg0 ty.width := load_shared (shares _ (.head _))
    have right : (vm.withStack m).load arg1 ty.width = vm.load arg1 ty.width :=
      load_shared (shares _ (.tail _ (.head _)))
    have target : (vm.withStack m).load arg2 64 = vm.load arg2 64 :=
      load_shared (shares _ (.tail _ (.tail _ (.head _))))
    simp only [exec, left, right, target] at h ⊢
    split at h
    · split at h
      · next taken =>
        rw [if_pos taken]
        split at h
        · cases h
          exact same_parallel rfl
        · cases h
      · next passed =>
        rw [if_neg passed]
        cases h
        exact same_parallel rfl
    · cases h
    · cases h
  | toI32 ty | toF32 ty =>
    have operand : (vm.withStack m).load arg1 ty.width = vm.load arg1 ty.width :=
      load_shared (shares _ (.head _))
    simp only [exec, operand] at h ⊢
    split at h
    · exact put_parallel h
    · cases h
  | Call =>
    simp only [exec] at h ⊢
    split at h
    · next user =>
      rw [if_pos user]
      cases h
      exact same_parallel rfl
    · next system =>
      rw [if_neg system]
      split at h
      · next u called =>
        cases h
        rw [builtin_parallel called (text rfl) (shares _ (.head _))]
        have kept : u.stack_ = vm.stack_ := builtin_frame called
        have kept' : u.next.stack_ = vm.stack_ := kept
        exact same_parallel kept'
      · cases h
  | Return => exact absurd rfl stays
  | Label => cases h

def local_ (vm : ByteCodeVM) (a : Nat) : Byte := vm.stack_ (vm.stack_top_ + BitVec.ofNat 64 a).toNat

theorem misses_local {addr : Address} {n a : Nat} (relative : addr &&& TypePart = STACK_TOP)
    (small : a < 2 ^ 56) (few : n ≤ MAX_STACK)
    (outside : a < (addr &&& OffsetPart).toNat ∨ (addr &&& OffsetPart).toNat + n ≤ a) :
    vm.Misses addr n (vm.stack_top_ + BitVec.ofNat 64 a).toNat := by
  intro k accessed
  have offset := toNat_offset addr
  rw [access, transAddr, if_pos relative] at accessed
  simp only at accessed
  split at accessed
  · next fits =>
    cases accessed
    simp only [BitVec.toNat_add, BitVec.toNat_ofNat] at fits ⊢
    unfold MAX_STACK at fits few
    omega
  · cases accessed

end ByteCodeVM

end Mygo
