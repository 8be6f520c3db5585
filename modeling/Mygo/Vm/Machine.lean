import Mygo.Lib.ByteMemory
import Mygo.Lib.Interp

/-! The byte-code machine of vm.h and vm.cpp.  Integers are two's complement words of the
width of their C++ type; floating-point arithmetic is a parameter on bit patterns. -/

namespace Mygo

open ByteMemory

abbrev Address := BitVec 64

def TypePart : Address := 0xFF00000000000000#64
def OffsetPart : Address := 0x00FFFFFFFFFFFFFF#64

def ZERO : Address := 0x0000000000000000#64
def ROM : Address := 0x0100000000000000#64
def CODE : Address := 0x0200000000000000#64
def STACK_TOP : Address := 0x0300000000000000#64
def STACK_TAIL : Address := 0x0400000000000000#64
def LABEL : Address := 0x0500000000000000#64

def base (addr_type offset : Address) : Address := (offset &&& OffsetPart) ||| addr_type

theorem parts_add (x : Address) : (x &&& TypePart) + (x &&& OffsetPart) = x := by
  have disjoint : (x &&& TypePart) &&& (x &&& OffsetPart) = 0#64 := by
    calc
      (x &&& TypePart) &&& (x &&& OffsetPart) = (x &&& x) &&& (TypePart &&& OffsetPart) := by ac_rfl
      _ = 0#64 := by rw [show TypePart &&& OffsetPart = 0#64 by decide, BitVec.and_zero]
  rw [BitVec.add_eq_or_of_and_eq_zero _ _ disjoint, ← BitVec.and_or_distrib_left,
    show TypePart ||| OffsetPart = BitVec.allOnes 64 by decide, BitVec.and_allOnes]

theorem toNat_offset (x : Address) : (x &&& OffsetPart).toNat = x.toNat % 2 ^ 56 := by
  rw [BitVec.toNat_and, show OffsetPart.toNat = 2 ^ 56 - 1 by decide, Nat.and_two_pow_sub_one_eq_mod]

theorem offset_succ {x : Address} (h : (x &&& OffsetPart).toNat + 1 < 2 ^ 56) :
    (x + 1) &&& OffsetPart = (x &&& OffsetPart) + 1 := by
  apply BitVec.eq_of_toNat_eq
  have hx := toNat_offset x
  rw [hx] at h
  rw [toNat_offset, BitVec.toNat_add, BitVec.toNat_add, hx, show (1 : Address).toNat = 1 from rfl]
  omega

theorem type_succ {x : Address} (h : (x &&& OffsetPart).toNat + 1 < 2 ^ 56) :
    (x + 1) &&& TypePart = x &&& TypePart := by
  have parts := parts_add (x + 1)
  rw [offset_succ h] at parts
  have parts' := parts_add x
  generalize x &&& OffsetPart = o at *
  generalize (x + 1) &&& TypePart = t at *
  generalize x &&& TypePart = t' at *
  bv_omega

theorem base_type {t : Address} (ht : t &&& TypePart = t) (o : Address) :
    base t o &&& TypePart = t := by
  rw [base, BitVec.and_or_distrib_right, BitVec.and_assoc,
    show OffsetPart &&& TypePart = 0#64 by decide, BitVec.and_zero, BitVec.zero_or, ht]

theorem base_offset {t : Address} (ht : t &&& OffsetPart = 0#64) (o : Address) :
    base t o &&& OffsetPart = o &&& OffsetPart := by
  rw [base, BitVec.and_or_distrib_right, BitVec.and_assoc, BitVec.and_self, ht, BitVec.or_zero]

/-- `UINT64_MAX - 10000`. -/
def BUILT_IN_START : Address := 18446744073709541615#64
def SC_PRINT_I8 : Address := BUILT_IN_START
def SC_PRINT_I32 : Address := BUILT_IN_START + 1
def SC_PRINT_I64 : Address := BUILT_IN_START + 2
def SC_PRINT_F32 : Address := BUILT_IN_START + 3
def SC_PRINT_F64 : Address := BUILT_IN_START + 4
def SC_PRINT_STR : Address := BUILT_IN_START + 5

def MAX_STACK : Nat := 8000000

inductive InsType
  | I8 | I32 | I64 | F32 | F64
  deriving DecidableEq

@[reducible] def InsType.width : InsType → Nat
  | .I8 => 8
  | .I32 => 32
  | .I64 => 64
  | .F32 => 32
  | .F64 => 64

inductive BinOp
  | Add | Sub | Mul | Div
  deriving DecidableEq

inductive CmpOp
  | Gt | Eq | GtEq
  deriving DecidableEq

/-- `case1` and `case2` are the `Add..Div` families without and with the suffix `D`, `jump`,
`toI32` and `toF32` the other macro families; each takes its member's parameters. -/
inductive Op
  | Move
  | Set8 | Set32 | Set64
  | SetStackBottom
  | SavePC | Call | Return
  | Label
  | case1 (op : BinOp) (ty : InsType)
  | case2 (op : BinOp) (ty : InsType)
  | jump (op : CmpOp) (ty : InsType)
  | toI32 (ty : InsType)
  | toF32 (ty : InsType)
  deriving DecidableEq

@[match_pattern] abbrev Op.AddI32 : Op := .case1 .Add .I32
@[match_pattern] abbrev Op.SubI32 : Op := .case1 .Sub .I32
@[match_pattern] abbrev Op.MulI32 : Op := .case1 .Mul .I32
@[match_pattern] abbrev Op.DivI32 : Op := .case1 .Div .I32
@[match_pattern] abbrev Op.MulI32D : Op := .case2 .Mul .I32
@[match_pattern] abbrev Op.JumpEqI32 : Op := .jump .Eq .I32

structure Instruction where
  op : Op
  arg0 : Address
  arg1 : Address
  arg2 : Address
  deriving DecidableEq

abbrev Program := List Instruction

structure CallPoint where
  pc : Nat
  stack_top : Address
  stack_bottom : Address
  ret_res_addr : Address

inductive Output
  | I8 (v : BitVec 8) | I32 (v : BitVec 32) | I64 (v : BitVec 64)
  | F32 (v : BitVec 32) | F64 (v : BitVec 64)
  | Str (v : List Byte)
  | finished
  deriving DecidableEq

/-- The machine's state.  `call_stack_` has its `back()` at the head. -/
structure ByteCodeVM where
  pc_ : Nat
  stack_top_ : Address
  stack_bottom_ : Address
  call_stack_ : List CallPoint
  finished_ : Bool
  stack_ : Mem
  out : List Output

def ByteCodeVM.Init : ByteCodeVM where
  pc_ := 0
  stack_top_ := 0
  stack_bottom_ := 0
  call_stack_ := []
  finished_ := false
  stack_ := fun _ => 0
  out := []

/-- What ends a run other than by leaving the program: an opcode or system call without a
case, an address `transAddr` cannot translate, an index outside the stack, and an integer
division with no value. -/
inductive Fault
  | opcode | address | stack | divide
  deriving DecidableEq

structure FloatOps where
  arith32 : BinOp → BitVec 32 → BitVec 32 → BitVec 32
  arith64 : BinOp → BitVec 64 → BitVec 64 → BitVec 64
  cmp32 : CmpOp → BitVec 32 → BitVec 32 → Bool
  cmp64 : CmpOp → BitVec 64 → BitVec 64 → Bool
  toU32 : (ty : InsType) → BitVec ty.width → BitVec 32
  toF32 : (ty : InsType) → BitVec ty.width → BitVec 32

def FloatOps.unused : FloatOps where
  arith32 _ _ _ := 0
  arith64 _ _ _ := 0
  cmp32 _ _ _ := false
  cmp64 _ _ _ := false
  toU32 _ _ := 0
  toF32 _ _ := 0

namespace ByteCodeVM

def transAddr (vm : ByteCodeVM) (addr : Address) : Except Fault Address :=
  if addr &&& TypePart = STACK_TOP then .ok (vm.stack_top_ + (addr &&& OffsetPart))
  else if addr &&& TypePart = STACK_TAIL then .ok (vm.stack_bottom_ + (addr &&& OffsetPart))
  else .error .address

def access (vm : ByteCodeVM) (addr : Address) (size : Nat) : Except Fault Nat :=
  match vm.transAddr addr with
  | .ok i => if i.toNat + size ≤ MAX_STACK then .ok i.toNat else .error .stack
  | .error e => .error e

def load (vm : ByteCodeVM) (addr : Address) (w : Nat) : Except Fault (BitVec w) :=
  match vm.access addr (w / 8) with
  | .ok i => .ok (vm.stack_.load w i)
  | .error e => .error e

def store (vm : ByteCodeVM) (addr : Address) {w : Nat} (v : BitVec w) : Except Fault ByteCodeVM :=
  match vm.access addr (w / 8) with
  | .ok i => .ok { vm with stack_ := vm.stack_.store i v }
  | .error e => .error e

def next (vm : ByteCodeVM) : ByteCodeVM := { vm with pc_ := vm.pc_ + 1 }

def print (vm : ByteCodeVM) (o : Output) : ByteCodeVM := { vm with out := vm.out ++ [o] }

end ByteCodeVM

/-- Integer division: `int8_t` operands are promoted, so only wider types can overflow. -/
def divInt {w : Nat} (a b : BitVec w) : Except Fault (BitVec w) :=
  if b = 0 then .error .divide
  else if 8 < w ∧ a = BitVec.intMin w ∧ b = -1 then .error .divide
  else .ok (a.sdiv b)

def arithInt {w : Nat} (op : BinOp) (a b : BitVec w) : Except Fault (BitVec w) :=
  match op with
  | .Add => .ok (a + b)
  | .Sub => .ok (a - b)
  | .Mul => .ok (a * b)
  | .Div => divInt a b

def cmpInt {w : Nat} (op : CmpOp) (a b : BitVec w) : Bool :=
  match op with
  | .Gt => b.slt a
  | .Eq => a == b
  | .GtEq => b.sle a

namespace FloatOps

variable (F : FloatOps)

def arith (op : BinOp) : (ty : InsType) → BitVec ty.width → BitVec ty.width →
    Except Fault (BitVec ty.width)
  | .I8, a, b => arithInt op a b
  | .I32, a, b => arithInt op a b
  | .I64, a, b => arithInt op a b
  | .F32, a, b => .ok (F.arith32 op a b)
  | .F64, a, b => .ok (F.arith64 op a b)

def cmp (op : CmpOp) : (ty : InsType) → BitVec ty.width → BitVec ty.width → Bool
  | .I8, a, b => cmpInt op a b
  | .I32, a, b => cmpInt op a b
  | .I64, a, b => cmpInt op a b
  | .F32, a, b => F.cmp32 op a b
  | .F64, a, b => F.cmp64 op a b

def convU32 : (ty : InsType) → BitVec ty.width → BitVec 32
  | .I8, a => BitVec.signExtend 32 a
  | .I32, a => a
  | .I64, a => BitVec.setWidth 32 a
  | .F32, a => F.toU32 .F32 a
  | .F64, a => F.toU32 .F64 a

end FloatOps

/-- The bytes of the C string at index `i`, if one ends inside the stack. -/
def cstr (m : Mem) : Nat → Nat → Option (List Byte)
  | 0, _ => none
  | left + 1, i => if m i = 0 then some [] else (cstr m left (i + 1)).map (m i :: ·)

namespace ByteCodeVM

def builtin (vm : ByteCodeVM) (call arg1 : Address) : Except Fault ByteCodeVM :=
  if call = SC_PRINT_I8 then
    match vm.load arg1 8 with
    | .ok v => .ok (vm.print (.I8 v))
    | .error e => .error e
  else if call = SC_PRINT_I32 then
    match vm.load arg1 32 with
    | .ok v => .ok (vm.print (.I32 v))
    | .error e => .error e
  else if call = SC_PRINT_I64 then
    match vm.load arg1 64 with
    | .ok v => .ok (vm.print (.I64 v))
    | .error e => .error e
  else if call = SC_PRINT_F32 then
    match vm.load arg1 32 with
    | .ok v => .ok (vm.print (.F32 v))
    | .error e => .error e
  else if call = SC_PRINT_F64 then
    match vm.load arg1 64 with
    | .ok v => .ok (vm.print (.F64 v))
    | .error e => .error e
  else if call = SC_PRINT_STR then
    match vm.access arg1 1 with
    | .ok i => match cstr vm.stack_ (MAX_STACK - i) i with
      | some s => .ok (vm.print (.Str s))
      | none => .error .stack
    | .error e => .error e
  else .error .opcode

def readRange (vm : ByteCodeVM) (addr : Address) : Nat → Except Fault (List Byte)
  | 0 => .ok []
  | n + 1 => match vm.load addr 8 with
    | .ok b => match vm.readRange (addr + 1) n with
      | .ok bs => .ok (b :: bs)
      | .error e => .error e
    | .error e => .error e

def writeRange (vm : ByteCodeVM) (addr : Address) : List Byte → Except Fault ByteCodeVM
  | [] => .ok vm
  | b :: bs => match vm.store addr b with
    | .ok vm' => vm'.writeRange (addr + 1) bs
    | .error e => .error e

/-- `Op::Return` with a suspended caller. -/
def ret (vm : ByteCodeVM) (cp : CallPoint) (callers : List CallPoint)
    (ret_addr ret_len : Address) : Except Fault ByteCodeVM :=
  match vm.readRange ret_addr ret_len.toNat with
  | .ok ret_content =>
    { vm with call_stack_ := callers, stack_top_ := cp.stack_top,
              stack_bottom_ := cp.stack_bottom, pc_ := cp.pc }.writeRange
      cp.ret_res_addr ret_content
  | .error e => .error e

def call (vm : ByteCodeVM) (arg0 arg1 : Address) : ByteCodeVM :=
  { vm with
    call_stack_ := ⟨vm.pc_ + 1, vm.stack_top_, vm.stack_bottom_, arg1⟩ :: vm.call_stack_
    pc_ := arg0.toNat
    stack_top_ := vm.stack_bottom_ }

def put (vm : ByteCodeVM) (addr : Address) {w : Nat} (v : BitVec w) : Except Fault ByteCodeVM :=
  match vm.store addr v with
  | .ok vm' => .ok vm'.next
  | .error e => .error e

/-- The `switch` of `ByteCodeVM::Run`. -/
def exec (F : FloatOps) (ins : Instruction) (vm : ByteCodeVM) : Except Fault ByteCodeVM :=
  match ins.op with
  | .Move => match vm.load ins.arg1 8 with
    | .ok v => vm.put ins.arg0 v
    | .error e => .error e
  | .Set8 => vm.put ins.arg0 (ins.arg1.setWidth 8)
  | .Set32 => vm.put ins.arg0 (ins.arg1.setWidth 32)
  | .Set64 => vm.put ins.arg0 ins.arg1
  | .SetStackBottom => .ok { vm with stack_bottom_ := vm.stack_top_ + ins.arg0 }.next
  | .case1 op ty => match vm.load ins.arg1 ty.width, vm.load ins.arg2 ty.width with
    | .ok a, .ok b => match F.arith op ty a b with
      | .ok v => vm.put ins.arg0 v
      | .error e => .error e
    | .error e, _ => .error e
    | _, .error e => .error e
  | .case2 op ty => match vm.load ins.arg0 ty.width with
    | .ok a => match F.arith op ty a (ins.arg1.setWidth ty.width) with
      | .ok v => vm.put ins.arg0 v
      | .error e => .error e
    | .error e => .error e
  | .jump op ty => match vm.load ins.arg0 ty.width, vm.load ins.arg1 ty.width with
    | .ok a, .ok b =>
      if F.cmp op ty a b then
        match vm.load ins.arg2 64 with
        | .ok pc => .ok { vm with pc_ := pc.toNat }
        | .error e => .error e
      else .ok vm.next
    | .error e, _ => .error e
    | _, .error e => .error e
  | .toI32 ty => match vm.load ins.arg1 ty.width with
    | .ok a => vm.put ins.arg0 (F.convU32 ty a)
    | .error e => .error e
  | .toF32 ty => match vm.load ins.arg1 ty.width with
    | .ok a => vm.put ins.arg0 (F.toF32 ty a)
    | .error e => .error e
  | .SavePC => vm.put ins.arg0 (BitVec.ofNat 64 (vm.pc_ + 1))
  | .Call =>
    if ins.arg0 < BUILT_IN_START then .ok (vm.call ins.arg0 ins.arg1)
    else match vm.builtin ins.arg0 ins.arg1 with
      | .ok vm' => .ok vm'.next
      | .error e => .error e
  | .Return => match vm.call_stack_ with
    | [] => .ok ({ vm with finished_ := true }.print .finished)
    | cp :: callers => vm.ret cp callers ins.arg0 ins.arg1
  | .Label => .error .opcode

/-- The machine as an interpreter: the loop of `Run` fetches at `pc_` until `finished_`. -/
def interp (F : FloatOps) : Interp Instruction ByteCodeVM Fault where
  pc := pc_
  halted := finished_
  exec := exec F

abbrev Run (F : FloatOps) (program : Program) (ticks : Nat) (vm : ByteCodeVM) :
    Except Fault ByteCodeVM :=
  (interp F).run program ticks vm

end ByteCodeVM

end Mygo
