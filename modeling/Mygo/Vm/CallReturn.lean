import Mygo.Vm.Machine

namespace Mygo

open ByteMemory

namespace ByteCodeVM

/-- The register an address is relative to; only addresses `transAddr` translates matter. -/
def register (vm : ByteCodeVM) (addr : Address) : Address :=
  if addr &&& TypePart = STACK_TAIL then vm.stack_bottom_ else vm.stack_top_

/-- The stack index of an address, as an exact sum. -/
def index (vm : ByteCodeVM) (addr : Address) : Nat :=
  (vm.register addr).toNat + (addr &&& OffsetPart).toNat

def Exact (vm : ByteCodeVM) (addr : Address) : Prop := vm.index addr < 2 ^ 64

def resume (vm : ByteCodeVM) (cp : CallPoint) (callers : List CallPoint) : ByteCodeVM :=
  { vm with call_stack_ := callers, stack_top_ := cp.stack_top,
            stack_bottom_ := cp.stack_bottom, pc_ := cp.pc }

/-- No sum of an instruction wraps: the one of `SetStackBottom`, that of the address it stores to,
and those of the bytes a `Return` copies. -/
def Unwrapped (vm : ByteCodeVM) (ins : Instruction) : Prop :=
  match ins.op with
  | .Move | .Set8 | .Set32 | .Set64 | .SavePC | .case1 _ _ | .case2 _ _ | .toI32 _ | .toF32 _ =>
    vm.Exact ins.arg0
  | .SetStackBottom => vm.stack_top_.toNat + ins.arg0.toNat < 2 ^ 64
  | .Return => ∀ cp callers, vm.call_stack_ = cp :: callers → ∀ k < ins.arg1.toNat,
      vm.Exact (ins.arg0 + BitVec.ofNat 64 k) ∧
      (vm.resume cp callers).Exact (cp.ret_res_addr + BitVec.ofNat 64 k)
  | .jump _ _ | .Call | .Label => True

theorem transAddr_eq {vm : ByteCodeVM} {addr i : Address} (h : vm.transAddr addr = .ok i) :
    i = vm.register addr + (addr &&& OffsetPart) := by
  unfold transAddr at h
  unfold register
  split at h
  · next htop =>
    rw [if_neg (by rw [htop]; decide)]
    exact (Except.ok.inj h).symm
  · next htop =>
    split at h
    · next htail => rw [if_pos htail]; exact (Except.ok.inj h).symm
    · cases h

theorem access_eq {vm : ByteCodeVM} {addr : Address} {size i : Nat} (sum : vm.Exact addr)
    (h : vm.access addr size = .ok i) : i = vm.index addr ∧ vm.index addr + size ≤ MAX_STACK := by
  unfold access at h
  split at h
  · next j hj =>
    have same : j.toNat = vm.index addr := by
      rw [transAddr_eq hj, BitVec.toNat_add]
      exact Nat.mod_eq_of_lt sum
    split at h
    · next inside =>
      cases h
      exact ⟨same, same ▸ inside⟩
    · cases h
  · cases h

theorem load_eq {vm : ByteCodeVM} {addr : Address} {w : Nat} {v : BitVec w}
    (sum : vm.Exact addr) (h : vm.load addr w = .ok v) :
    v = vm.stack_.load w (vm.index addr) ∧ vm.index addr + w / 8 ≤ MAX_STACK := by
  unfold load at h
  split at h
  · next i hi =>
    cases h
    obtain ⟨rfl, inside⟩ := access_eq sum hi
    exact ⟨rfl, inside⟩
  · cases h

theorem store_eq {vm vm' : ByteCodeVM} {addr : Address} {w : Nat} {v : BitVec w}
    (sum : vm.Exact addr) (h : vm.store addr v = .ok vm') :
    vm' = { vm with stack_ := vm.stack_.store (vm.index addr) v } ∧
      vm.index addr + w / 8 ≤ MAX_STACK := by
  unfold store at h
  split at h
  · next i hi =>
    cases h
    obtain ⟨rfl, inside⟩ := access_eq sum hi
    exact ⟨rfl, inside⟩
  · cases h

theorem index_succ {vm : ByteCodeVM} {addr : Address} (inside : vm.index addr + 1 ≤ MAX_STACK) :
    vm.index (addr + 1) = vm.index addr + 1 := by
  have small : (addr &&& OffsetPart).toNat + 1 < 2 ^ 56 := by
    unfold index MAX_STACK at inside
    omega
  have sum : ((addr &&& OffsetPart) + 1).toNat = (addr &&& OffsetPart).toNat + 1 := by
    rw [BitVec.toNat_add, show (1 : Address).toNat = 1 from rfl]
    omega
  rw [index, index, register, register, type_succ small, offset_succ small, sum]
  omega

theorem exact_tail {vm : ByteCodeVM} {addr : Address} {n : Nat}
    (sums : ∀ k < n + 1, vm.Exact (addr + BitVec.ofNat 64 k)) :
    ∀ k < n, vm.Exact (addr + 1 + BitVec.ofNat 64 k) := by
  intro k hk
  have shifted := sums (k + 1) (by omega)
  rwa [BitVec.ofNat_add, BitVec.add_comm (BitVec.ofNat 64 k), ← BitVec.add_assoc] at shifted

theorem readRange_eq {vm : ByteCodeVM} {addr : Address} {n : Nat} {bs : List Byte}
    (sums : ∀ k < n, vm.Exact (addr + BitVec.ofNat 64 k))
    (h : vm.readRange addr n = .ok bs) : bs = vm.stack_.read (vm.index addr) n := by
  induction n generalizing addr bs with
  | zero =>
    cases h
    rfl
  | succ n ih =>
    have first : vm.Exact addr := by simpa using sums 0 (by omega)
    simp only [readRange] at h
    split at h
    · next b hb =>
      split at h
      · next rest hrest =>
        cases h
        obtain ⟨head, inside⟩ := load_eq first hb
        rw [Mem.read, head, load_byte, ih (exact_tail sums) hrest, index_succ inside]
      · cases h
    · cases h

theorem writeRange_eq {vm vm' : ByteCodeVM} {addr : Address} {bs : List Byte}
    (sums : ∀ k < bs.length, vm.Exact (addr + BitVec.ofNat 64 k))
    (h : vm.writeRange addr bs = .ok vm') :
    vm' = { vm with stack_ := vm.stack_.write (vm.index addr) bs } := by
  induction bs generalizing vm addr with
  | nil =>
    cases h
    rfl
  | cons b bs ih =>
    have first : vm.Exact addr := by simpa using sums 0 (by simp)
    simp only [writeRange] at h
    split at h
    · next u hu =>
      obtain ⟨rfl, inside⟩ := store_eq first hu
      have rest := ih (by exact exact_tail sums) h
      rw [rest, store_byte]
      simp only [Mem.write, ← index_succ inside]
      rfl
    · cases h

/-- The effect of every instruction but `SetStackBottom`, `Call` and `Return` into a caller:
the frame stays, and so does everything below its two bases. -/
structure Local (vm vm' : ByteCodeVM) : Prop where
  top : vm'.stack_top_ = vm.stack_top_
  bottom : vm'.stack_bottom_ = vm.stack_bottom_
  calls : vm'.call_stack_ = vm.call_stack_
  below : ∀ b, b ≤ vm.stack_top_.toNat → b ≤ vm.stack_bottom_.toNat →
    ∀ a < b, vm'.stack_ a = vm.stack_ a

theorem le_index {vm : ByteCodeVM} {b : Nat} (htop : b ≤ vm.stack_top_.toNat)
    (hbottom : b ≤ vm.stack_bottom_.toNat) (addr : Address) : b ≤ vm.index addr := by
  unfold index register
  split <;> omega

theorem Local.print (vm : ByteCodeVM) (o : Output) : Local vm (vm.print o) :=
  ⟨rfl, rfl, rfl, fun _ _ _ _ _ => rfl⟩

theorem Local.next {vm vm' : ByteCodeVM} (h : Local vm vm') : Local vm vm'.next :=
  ⟨h.top, h.bottom, h.calls, h.below⟩

theorem Local.put {vm vm' : ByteCodeVM} {addr : Address} {w : Nat} {v : BitVec w}
    (sum : vm.Exact addr) (h : vm.put addr v = .ok vm') : Local vm vm' := by
  unfold ByteCodeVM.put at h
  split at h
  · next u hu =>
    cases h
    rw [(store_eq sum hu).1]
    refine ⟨rfl, rfl, rfl, fun b htop hbottom a ha => ?_⟩
    exact store_of_outside _ _ _ _ (.inl (Nat.lt_of_lt_of_le ha (le_index htop hbottom addr)))
  · cases h

theorem Local.builtin {vm vm' : ByteCodeVM} {call arg1 : Address}
    (h : vm.builtin call arg1 = .ok vm') : Local vm vm' := by
  unfold ByteCodeVM.builtin at h
  repeat' split at h
  all_goals first
    | cases h; exact Local.print vm _
    | cases h

theorem exec_cases {F : FloatOps} {ins : Instruction} {vm vm' : ByteCodeVM}
    (unwrapped : vm.Unwrapped ins) (h : exec F ins vm = .ok vm') :
    (Local vm vm' ∧ (ins.op = .Return → vm.call_stack_ = [])) ∨
    (ins.op = .SetStackBottom ∧ vm.stack_top_.toNat + ins.arg0.toNat < 2 ^ 64 ∧
      vm' = { vm with stack_bottom_ := vm.stack_top_ + ins.arg0 }.next) ∨
    (ins.op = .Call ∧ vm' = vm.call ins.arg0 ins.arg1) ∨
    (∃ cp callers, ins.op = .Return ∧ vm.call_stack_ = cp :: callers ∧
      vm.ret cp callers ins.arg0 ins.arg1 = .ok vm') := by
  obtain ⟨op, arg0, arg1, arg2⟩ := ins
  cases op with
  | Move =>
    simp only [exec] at h
    split at h
    · exact .inl ⟨.put unwrapped h, nofun⟩
    · cases h
  | Set8 => exact .inl ⟨.put unwrapped h, nofun⟩
  | Set32 => exact .inl ⟨.put unwrapped h, nofun⟩
  | Set64 => exact .inl ⟨.put unwrapped h, nofun⟩
  | SavePC => exact .inl ⟨.put unwrapped h, nofun⟩
  | SetStackBottom => exact .inr (.inl ⟨rfl, unwrapped, (Except.ok.inj h).symm⟩)
  | case1 op ty =>
    simp only [exec] at h
    split at h
    · split at h
      · exact .inl ⟨.put unwrapped h, nofun⟩
      · cases h
    · cases h
    · cases h
  | case2 op ty =>
    simp only [exec] at h
    split at h
    · split at h
      · exact .inl ⟨.put unwrapped h, nofun⟩
      · cases h
    · cases h
  | jump op ty =>
    simp only [exec] at h
    split at h
    · split at h
      · split at h
        · cases h
          exact .inl ⟨⟨rfl, rfl, rfl, fun _ _ _ _ _ => rfl⟩, nofun⟩
        · cases h
      · cases h
        exact .inl ⟨⟨rfl, rfl, rfl, fun _ _ _ _ _ => rfl⟩, nofun⟩
    · cases h
    · cases h
  | toI32 ty =>
    simp only [exec] at h
    split at h
    · exact .inl ⟨.put unwrapped h, nofun⟩
    · cases h
  | toF32 ty =>
    simp only [exec] at h
    split at h
    · exact .inl ⟨.put unwrapped h, nofun⟩
    · cases h
  | Call =>
    simp only [exec] at h
    split at h
    · exact .inr (.inr (.inl ⟨rfl, (Except.ok.inj h).symm⟩))
    · split at h
      · next u hu =>
        cases h
        exact .inl ⟨(Local.builtin hu).next, nofun⟩
      · cases h
  | Return =>
    simp only [exec] at h
    split at h
    · next hempty =>
      cases h
      exact .inl ⟨⟨rfl, rfl, rfl, fun _ _ _ _ _ => rfl⟩, fun _ => hempty⟩
    · next cp callers hcalls => exact .inr (.inr (.inr ⟨cp, callers, rfl, hcalls, h⟩))
  | Label => cases h

theorem ret_eq {vm vm' : ByteCodeVM} {cp : CallPoint} {callers : List CallPoint}
    {ret_addr ret_len : Address}
    (sums : ∀ k < ret_len.toNat, vm.Exact (ret_addr + BitVec.ofNat 64 k) ∧
      (vm.resume cp callers).Exact (cp.ret_res_addr + BitVec.ofNat 64 k))
    (h : vm.ret cp callers ret_addr ret_len = .ok vm') :
    vm' = { vm.resume cp callers with
      stack_ := vm.stack_.write ((vm.resume cp callers).index cp.ret_res_addr)
        (vm.stack_.read (vm.index ret_addr) ret_len.toNat) } := by
  unfold ret at h
  split at h
  · next bs hbs =>
    have content := readRange_eq (fun k hk => (sums k hk).1) hbs
    subst content
    have window : ∀ k < (vm.stack_.read (vm.index ret_addr) ret_len.toNat).length,
        (vm.resume cp callers).Exact (cp.ret_res_addr + BitVec.ofNat 64 k) :=
      fun k hk => (sums k (by simpa using hk)).2
    exact writeRange_eq window h
  · cases h

end ByteCodeVM

/-- The call `cp` into a frame based at `b` has not returned: every frame since is based at
or above `b`, and the bytes below `b` are those of `m`. -/
structure Suspended (cp : CallPoint) (callers : List CallPoint) (b : Nat) (m : Mem)
    (vm : ByteCodeVM) : Prop where
  frames : ∃ fs, vm.call_stack_ = fs ++ cp :: callers ∧
    ∀ f ∈ fs, b ≤ f.stack_top.toNat ∧ b ≤ f.stack_bottom.toNat
  top : b ≤ vm.stack_top_.toNat
  bottom : b ≤ vm.stack_bottom_.toNat
  below : ∀ a < b, vm.stack_ a = m a

namespace Suspended

open ByteCodeVM

variable {cp : CallPoint} {callers : List CallPoint} {b : Nat} {m : Mem} {vm vm' : ByteCodeVM}

theorem call (vm : ByteCodeVM) (arg0 arg1 : Address) :
    Suspended ⟨vm.pc_ + 1, vm.stack_top_, vm.stack_bottom_, arg1⟩ vm.call_stack_
      vm.stack_bottom_.toNat vm.stack_ (vm.call arg0 arg1) :=
  ⟨⟨[], rfl, nofun⟩, Nat.le_refl _, Nat.le_refl _, fun _ _ => rfl⟩

theorem ofLocal (s : Suspended cp callers b m vm) (h : Local vm vm') :
    Suspended cp callers b m vm' where
  frames := by
    rw [h.calls]
    exact s.frames
  top := h.top ▸ s.top
  bottom := h.bottom ▸ s.bottom
  below a ha := (h.below b s.top s.bottom a ha).trans (s.below a ha)

theorem setStackBottom (s : Suspended cp callers b m vm) {arg0 : Address}
    (h : vm.stack_top_.toNat + arg0.toNat < 2 ^ 64) :
    Suspended cp callers b m { vm with stack_bottom_ := vm.stack_top_ + arg0 }.next where
  frames := s.frames
  top := s.top
  bottom := by
    have := s.top
    change b ≤ (vm.stack_top_ + arg0).toNat
    rw [BitVec.toNat_add, Nat.mod_eq_of_lt h]
    omega
  below := s.below

theorem nestedCall (s : Suspended cp callers b m vm) (arg0 arg1 : Address) :
    Suspended cp callers b m (vm.call arg0 arg1) where
  frames := by
    obtain ⟨fs, hfs, hbase⟩ := s.frames
    refine ⟨⟨vm.pc_ + 1, vm.stack_top_, vm.stack_bottom_, arg1⟩ :: fs, by simp [ByteCodeVM.call, hfs], ?_⟩
    intro f hf
    rcases List.mem_cons.mp hf with rfl | hf
    · exact ⟨s.top, s.bottom⟩
    · exact hbase f hf
  top := s.bottom
  bottom := s.bottom
  below := s.below

theorem nestedReturn (s : Suspended cp callers b m vm) {f : CallPoint} {rest : List CallPoint}
    (calls : vm.call_stack_ = f :: rest) (deeper : rest.length ≠ callers.length)
    (bs : List Byte) :
    Suspended cp callers b m { vm.resume f rest with
      stack_ := vm.stack_.write ((vm.resume f rest).index f.ret_res_addr) bs } := by
  obtain ⟨fs, hfs, hbase⟩ := s.frames
  cases fs with
  | nil =>
    obtain ⟨-, rfl⟩ := List.cons.inj (calls.symm.trans hfs)
    exact absurd rfl deeper
  | cons g fs =>
    obtain ⟨rfl, rfl⟩ := List.cons.inj (calls.symm.trans hfs)
    obtain ⟨htop, hbottom⟩ := hbase f (by simp)
    refine ⟨⟨fs, rfl, fun g hg => hbase g (by simp [hg])⟩, htop, hbottom, fun a ha => ?_⟩
    have above : b ≤ (vm.resume f (fs ++ cp :: callers)).index f.ret_res_addr :=
      le_index htop hbottom _
    exact (write_of_outside _ _ _ _ (.inl (Nat.lt_of_lt_of_le ha above))).trans (s.below a ha)

theorem step (s : Suspended cp callers b m vm) {F : FloatOps} {ins : Instruction}
    (unwrapped : vm.Unwrapped ins) (h : exec F ins vm = .ok vm')
    (later : ins.op = .Return → vm'.call_stack_.length ≠ callers.length) :
    Suspended cp callers b m vm' := by
  rcases exec_cases unwrapped h with ⟨hlocal, -⟩ | ⟨-, hwrap, rfl⟩ | ⟨-, rfl⟩ | ⟨f, rest, hop, calls, hret⟩
  · exact s.ofLocal hlocal
  · exact s.setStackBottom hwrap
  · exact s.nestedCall _ _
  · rw [Unwrapped, hop] at unwrapped
    have effect := ret_eq (unwrapped f rest calls) hret
    subst effect
    exact s.nestedReturn calls (later hop) _

theorem matched (s : Suspended cp callers b m vm) {F : FloatOps} {ins : Instruction}
    (unwrapped : vm.Unwrapped ins) (h : exec F ins vm = .ok vm') (hop : ins.op = .Return)
    (back : vm'.call_stack_.length = callers.length) :
    vm' = { vm.resume cp callers with
      stack_ := vm.stack_.write ((vm.resume cp callers).index cp.ret_res_addr)
        (vm.stack_.read (vm.index ins.arg0) ins.arg1.toNat) } := by
  obtain ⟨fs, hfs, -⟩ := s.frames
  rcases exec_cases unwrapped h with ⟨-, hempty⟩ | ⟨hop', -⟩ | ⟨hop', -⟩ | ⟨f, rest, -, calls, hret⟩
  · simp [hempty hop] at hfs
  · rw [hop] at hop'
    cases hop'
  · rw [hop] at hop'
    cases hop'
  · rw [Unwrapped, hop] at unwrapped
    have effect := ret_eq (unwrapped f rest calls) hret
    have hrest : rest.length = callers.length := by
      rw [effect] at back
      exact back
    cases fs with
    | nil =>
      obtain ⟨rfl, rfl⟩ := List.cons.inj (calls.symm.trans hfs)
      exact effect
    | cons g fs =>
      obtain ⟨-, rfl⟩ := List.cons.inj (calls.symm.trans hfs)
      have longer : (fs ++ cp :: callers).length = callers.length := hrest
      rw [List.length_append, List.length_cons] at longer
      omega

end Suspended

/-- In the run `tr`, step `i` executes the user call `call` and step `j` the first `ret`
that brings the call stack back to its length before the call.  A step that goes on has all of its
accesses inside the stack. -/
structure CallReturn (F : FloatOps) (program : Program) (tr : Nat → ByteCodeVM) (i j : Nat)
    (call ret : Instruction) : Prop where
  run : ∀ k, i ≤ k → k ≤ j → (ByteCodeVM.interp F).Step program (tr k) (tr (k + 1))
  call_fetched : program[(tr i).pc_]? = some call
  call_op : call.op = .Call
  call_user : call.arg0 < BUILT_IN_START
  later : i < j
  ret_fetched : program[(tr j).pc_]? = some ret
  ret_op : ret.op = .Return
  back : (tr (j + 1)).call_stack_.length = (tr i).call_stack_.length
  first : ∀ k, i < k → k < j → ∀ ins, program[(tr k).pc_]? = some ins → ins.op = .Return →
    (tr (k + 1)).call_stack_.length ≠ (tr i).call_stack_.length

namespace CallReturn

open ByteCodeVM

variable {F : FloatOps} {program : Program} {tr : Nat → ByteCodeVM} {i j : Nat}
  {call ret : Instruction}

theorem call_effect (c : CallReturn F program tr i j call ret) :
    tr (i + 1) = (tr i).call call.arg0 call.arg1 := by
  obtain ⟨-, ins, hfetch, hexec⟩ := c.run i (Nat.le_refl i) c.later.le
  obtain rfl : ins = call := Option.some.inj (hfetch.symm.trans c.call_fetched)
  simp only [interp, exec, c.call_op, if_pos c.call_user] at hexec
  exact (Except.ok.inj hexec).symm

theorem suspended (c : CallReturn F program tr i j call ret)
    (assumed : ∀ k, i ≤ k → k ≤ j → ∀ ins, program[(tr k).pc_]? = some ins → (tr k).Unwrapped ins) :
    ∀ k, i < k → k ≤ j → Suspended ⟨(tr i).pc_ + 1, (tr i).stack_top_, (tr i).stack_bottom_,
      call.arg1⟩ (tr i).call_stack_ (tr i).stack_bottom_.toNat (tr i).stack_ (tr k) := by
  intro k hk
  induction k, hk using Nat.le_induction with
  | base =>
    intro _
    rw [c.call_effect]
    exact .call _ _ _
  | succ k hk ih =>
    intro hj
    obtain ⟨-, ins, hfetch, hexec⟩ := c.run k (by omega) (by omega)
    exact (ih (by omega)).step (assumed k (by omega) (by omega) ins hfetch) hexec
      (c.first k hk hj ins hfetch)

end CallReturn

/-- Calls and returns are disciplined: when the matching `Return` has executed, the caller
goes on after its call with its own registers, its memory below the callee's frame is as it
was except for the return window, and the window holds the bytes the callee returned. -/
theorem call_return {F : FloatOps} {program : Program} {tr : Nat → ByteCodeVM} {i j : Nat}
    {call ret : Instruction} (c : CallReturn F program tr i j call ret)
    (assumed : ∀ k, i ≤ k → k ≤ j → ∀ ins, program[(tr k).pc_]? = some ins → (tr k).Unwrapped ins) :
    (tr (j + 1)).pc_ = (tr i).pc_ + 1 ∧
    (tr (j + 1)).stack_top_ = (tr i).stack_top_ ∧
    (tr (j + 1)).stack_bottom_ = (tr i).stack_bottom_ ∧
    (∀ a < (tr i).stack_bottom_.toNat,
      a < (tr i).index call.arg1 ∨ (tr i).index call.arg1 + ret.arg1.toNat ≤ a →
      (tr (j + 1)).stack_ a = (tr i).stack_ a) ∧
    (tr (j + 1)).stack_.read ((tr i).index call.arg1) ret.arg1.toNat =
      (tr j).stack_.read ((tr j).index ret.arg0) ret.arg1.toNat := by
  have suspended := c.suspended assumed j c.later (Nat.le_refl j)
  obtain ⟨-, ins, hfetch, hexec⟩ := c.run j c.later.le (Nat.le_refl j)
  obtain rfl : ins = ret := Option.some.inj (hfetch.symm.trans c.ret_fetched)
  have effect := suspended.matched (assumed j c.later.le (Nat.le_refl j) ins hfetch) hexec
    c.ret_op c.back
  have window : ((tr j).resume ⟨(tr i).pc_ + 1, (tr i).stack_top_, (tr i).stack_bottom_,
      call.arg1⟩ (tr i).call_stack_).index call.arg1 = (tr i).index call.arg1 := rfl
  rw [effect]
  refine ⟨rfl, rfl, rfl, fun a ha houtside => ?_, ?_⟩
  · refine Eq.trans (ByteMemory.write_of_outside _ _ _ _ ?_) (suspended.below a ha)
    simpa [window] using houtside
  · have same := ByteMemory.read_write_same (tr j).stack_ ((tr i).index call.arg1)
      ((tr j).stack_.read ((tr j).index ins.arg0) ins.arg1.toNat)
    rwa [ByteMemory.length_read] at same

def calleeAtThree (bottom stored returned : Address) : Program :=
  [⟨.SetStackBottom, bottom, 0, 0⟩, ⟨.Call, 3, base STACK_TOP 0, 0⟩, ⟨.Return, 0, 0, 0⟩,
    ⟨.Set8, base STACK_TOP stored, 7, 0⟩, ⟨.Return, base STACK_TOP returned, 1, 0⟩]

namespace calleeAtThree

def trace (bottom stored returned : Address) (k : Nat) : ByteCodeVM :=
  match ByteCodeVM.Run .unused (calleeAtThree bottom stored returned) k .Init with
  | .ok vm => vm
  | .error _ => .Init

variable {bottom stored returned : Address}

theorem callReturn
    (run : ∀ k, k = 1 ∨ k = 2 ∨ k = 3 → (ByteCodeVM.interp .unused).Step
      (calleeAtThree bottom stored returned) (trace bottom stored returned k)
      (trace bottom stored returned (k + 1)))
    (call : (trace bottom stored returned 1).pc_ = 1) (set : (trace bottom stored returned 2).pc_ = 3)
    (ret : (trace bottom stored returned 3).pc_ = 4)
    (back : (trace bottom stored returned 4).call_stack_.length =
      (trace bottom stored returned 1).call_stack_.length) :
    CallReturn .unused (calleeAtThree bottom stored returned) (trace bottom stored returned) 1 3
      ⟨.Call, 3, base STACK_TOP 0, 0⟩ ⟨.Return, base STACK_TOP returned, 1, 0⟩ where
  run k hi hj := run k (by omega)
  call_fetched := by rw [call]; rfl
  call_op := rfl
  call_user := by decide
  later := by decide
  ret_fetched := by rw [ret]; rfl
  ret_op := rfl
  back := back
  first k hi hj ins hfetch hop := by
    obtain rfl : k = 2 := by omega
    rw [set] at hfetch
    obtain rfl : ins = ⟨.Set8, base STACK_TOP stored, 7, 0⟩ := (Option.some.inj hfetch).symm
    cases hop

theorem callReturn_inside : CallReturn .unused (calleeAtThree 8 0 0) (trace 8 0 0) 1 3
    ⟨.Call, 3, base STACK_TOP 0, 0⟩ ⟨.Return, base STACK_TOP 0, 1, 0⟩ := by
  refine callReturn ?_ rfl rfl rfl rfl
  rintro k (rfl | rfl | rfl)
  · exact ⟨rfl, _, rfl, rfl⟩
  · exact ⟨rfl, _, rfl, rfl⟩
  · exact ⟨rfl, _, rfl, rfl⟩

theorem unwrapped : ∀ k, 1 ≤ k → k ≤ 3 → ∀ ins, (calleeAtThree 8 0 0)[(trace 8 0 0 k).pc_]? = some ins →
    (trace 8 0 0 k).Unwrapped ins := by
  intro k hi hj ins hfetch
  have : k = 1 ∨ k = 2 ∨ k = 3 := by omega
  rcases this with rfl | rfl | rfl <;> obtain rfl := (Option.some.inj hfetch).symm
  · trivial
  · exact (by decide : (trace 8 0 0 2).index (base STACK_TOP 0) < 2 ^ 64)
  · intro cp callers calls k hk
    obtain ⟨rfl, rfl⟩ := List.cons.inj calls
    obtain rfl : k = 0 := by simpa using hk
    exact ⟨(by decide : (trace 8 0 0 3).index (base STACK_TOP 0) < 2 ^ 64),
      (by decide : (trace 8 0 0 1).index (base STACK_TOP 0) < 2 ^ 64)⟩

end calleeAtThree

open calleeAtThree

theorem call_return_calleeAtThree :
    (trace 8 0 0 4).pc_ = 2 ∧ (trace 8 0 0 4).stack_top_ = 0 ∧ (trace 8 0 0 4).stack_bottom_ = 8 ∧
    (trace 8 0 0 4).stack_ 5 = 0 ∧ (trace 8 0 0 4).stack_.read 0 1 = [7] := by
  obtain ⟨hpc, htop, hbottom, hbelow, hwindow⟩ := call_return callReturn_inside unwrapped
  exact ⟨hpc, htop, hbottom, hbelow 5 (by decide) (by decide), hwindow⟩

/-- With a frame at the end of the addresses, the sum of a store wraps.  Every access lies inside
the stack and `SetStackBottom` does not wrap, but a byte below the callee's frame has changed. -/
theorem wrapped_store_below :
    CallReturn .unused (calleeAtThree (-8) 16 24) (trace (-8) 16 24) 1 3
      ⟨.Call, 3, base STACK_TOP 0, 0⟩ ⟨.Return, base STACK_TOP 24, 1, 0⟩ ∧
    (∀ k ≤ 3, ∀ ins, (calleeAtThree (-8) 16 24)[(trace (-8) 16 24 k).pc_]? = some ins →
      ins.op = .SetStackBottom → (trace (-8) 16 24 k).stack_top_.toNat + ins.arg0.toNat < 2 ^ 64) ∧
    ¬ ∀ a < (trace (-8) 16 24 1).stack_bottom_.toNat,
      a < (trace (-8) 16 24 1).index (base STACK_TOP 0) ∨
        (trace (-8) 16 24 1).index (base STACK_TOP 0) + 1 ≤ a →
      (trace (-8) 16 24 4).stack_ a = (trace (-8) 16 24 1).stack_ a := by
  refine ⟨callReturn ?_ rfl rfl rfl rfl, fun k hk ins hfetch hop => ?_, fun same => ?_⟩
  · rintro k (rfl | rfl | rfl)
    · exact ⟨rfl, _, rfl, rfl⟩
    · exact ⟨rfl, _, rfl, rfl⟩
    · exact ⟨rfl, _, rfl, rfl⟩
  · have : k = 0 ∨ k = 1 ∨ k = 2 ∨ k = 3 := by omega
    rcases this with rfl | rfl | rfl | rfl <;> obtain rfl := (Option.some.inj hfetch).symm
    · decide
    · cases hop
    · cases hop
    · cases hop
  · exact absurd (same 8 (by decide) (by decide)) (by decide)

end Mygo
