import Mathlib.Tactic

namespace ByteMemory

abbrev Byte := BitVec 8

abbrev Mem := Nat → Byte

def ofBytes : List Byte → Nat
  | [] => 0
  | b :: bs => b.toNat + 256 * ofBytes bs

def toBytes : Nat → Nat → List Byte
  | 0, _ => []
  | n + 1, x => BitVec.ofNat 8 x :: toBytes n (x / 256)

@[simp] theorem length_toBytes (n x : Nat) : (toBytes n x).length = n := by
  induction n generalizing x with
  | zero => rfl
  | succ n ih => simp [toBytes, ih]

theorem ofBytes_toBytes (n x : Nat) : ofBytes (toBytes n x) = x % 256 ^ n := by
  induction n generalizing x with
  | zero => simp [toBytes, ofBytes, Nat.mod_one]
  | succ n ih =>
    calc
      ofBytes (toBytes (n + 1) x) = x % 256 + 256 * (x / 256 % 256 ^ n) := by
        simp [toBytes, ofBytes, ih]
      _ = x % (256 * 256 ^ n) := Nat.mod_mul.symm
      _ = x % 256 ^ (n + 1) := by rw [← Nat.pow_succ']

def Mem.read (m : Mem) (a : Nat) : Nat → List Byte
  | 0 => []
  | n + 1 => m a :: Mem.read m (a + 1) n

def Mem.write (m : Mem) (a : Nat) : List Byte → Mem
  | [] => m
  | b :: bs => Mem.write (Function.update m a b) (a + 1) bs

@[simp] theorem length_read (m : Mem) (a n : Nat) : (m.read a n).length = n := by
  induction n generalizing a with
  | zero => rfl
  | succ n ih => simp [Mem.read, ih]

/-- Frame rule of a write: only the addresses it covers change. -/
theorem write_of_outside (m : Mem) (a : Nat) (bs : List Byte) (j : Nat)
    (h : j < a ∨ a + bs.length ≤ j) : m.write a bs j = m j := by
  induction bs generalizing m a with
  | nil => rfl
  | cons b bs ih =>
    rw [List.length_cons] at h
    rw [Mem.write, ih _ (a + 1) (by omega), Function.update_of_ne (by omega)]

theorem write_getElem (m : Mem) (a : Nat) (bs : List Byte) (i : Nat) (h : i < bs.length) :
    m.write a bs (a + i) = bs[i] := by
  induction bs generalizing m a i with
  | nil => simp at h
  | cons b bs ih =>
    cases i with
    | zero => simp [Mem.write, write_of_outside]
    | succ i =>
      rw [Mem.write, show a + (i + 1) = a + 1 + i by omega]
      simpa using ih _ (a + 1) i (by simpa using h)

theorem read_congr {m m' : Mem} {a n : Nat} (h : ∀ j, a ≤ j → j < a + n → m j = m' j) :
    m.read a n = m'.read a n := by
  induction n generalizing a with
  | zero => rfl
  | succ n ih =>
    rw [Mem.read, Mem.read, h a (by omega) (by omega)]
    congr 1
    exact ih fun j hj hj' => h j (by omega) (by omega)

theorem read_getElem (m : Mem) (a n i : Nat) (h : i < (m.read a n).length) :
    (m.read a n)[i] = m (a + i) := by
  induction n generalizing a i with
  | zero => simp at h
  | succ n ih =>
    cases i with
    | zero => simp [Mem.read]
    | succ i =>
      simp only [Mem.read, List.getElem_cons_succ]
      rw [ih, show a + 1 + i = a + (i + 1) by omega]

theorem read_write_same (m : Mem) (a : Nat) (bs : List Byte) :
    (m.write a bs).read a bs.length = bs := by
  apply List.ext_getElem (by simp)
  intro i h₁ h₂
  rw [read_getElem, write_getElem m a bs i h₂]

/-- The `w`-bit word stored at `a`; meaningful for `w` a multiple of eight. -/
def Mem.load (m : Mem) (w a : Nat) : BitVec w := BitVec.ofNat w (ofBytes (m.read a (w / 8)))

def Mem.store (m : Mem) (a : Nat) {w : Nat} (v : BitVec w) : Mem :=
  m.write a (toBytes (w / 8) v.toNat)

theorem load_store_same (m : Mem) (a : Nat) {w : Nat} (v : BitVec w) (hw : w % 8 = 0) :
    (m.store a v).load w a = v := by
  have hread : (m.store a v).read a (w / 8) = toBytes (w / 8) v.toNat := by
    simpa [Mem.store] using read_write_same m a (toBytes (w / 8) v.toNat)
  have hsize : 256 ^ (w / 8) = 2 ^ w := by
    rw [show 256 = 2 ^ 8 from rfl, ← Nat.pow_mul, Nat.mul_div_cancel' (Nat.dvd_of_mod_eq_zero hw)]
  rw [Mem.load, hread, ofBytes_toBytes, hsize, Nat.mod_eq_of_lt v.isLt, BitVec.ofNat_toNat,
    BitVec.setWidth_eq]

theorem store_of_outside (m : Mem) (a : Nat) {w : Nat} (v : BitVec w) (j : Nat)
    (h : j < a ∨ a + w / 8 ≤ j) : m.store a v j = m j :=
  write_of_outside m a _ j (by simpa using h)

theorem load_congr {m m' : Mem} {w a : Nat} (h : ∀ j, a ≤ j → j < a + w / 8 → m j = m' j) :
    m.load w a = m'.load w a := by rw [Mem.load, Mem.load, read_congr h]

theorem read_shift {m m' : Mem} {a b n : Nat} (h : ∀ j < n, m (a + j) = m' (b + j)) :
    m.read a n = m'.read b n := by
  apply List.ext_getElem (by simp)
  intro i h₁ h₂
  rw [read_getElem, read_getElem]
  exact h i (by simpa using h₁)

theorem load_shift {m m' : Mem} {w a b : Nat} (h : ∀ j < w / 8, m (a + j) = m' (b + j)) :
    m.load w a = m'.load w b := by rw [Mem.load, Mem.load, read_shift h]

theorem load_store_disjoint (m : Mem) (a : Nat) {w : Nat} (v : BitVec w) (u b : Nat)
    (h : b + u / 8 ≤ a ∨ a + w / 8 ≤ b) : (m.store a v).load u b = m.load u b :=
  load_congr fun j _ _ => store_of_outside m a v j (by omega)

theorem write_shift {m m' : Mem} {d j : Nat} (a : Nat) (bs : List Byte) (same : m' (j + d) = m j) :
    m'.write (a + d) bs (j + d) = m.write a bs j := by
  induction bs generalizing m m' a with
  | nil => exact same
  | cons b bs ih =>
    rw [Mem.write, Mem.write, Nat.add_right_comm]
    apply ih
    by_cases here : j = a
    · rw [here, Function.update_self, Function.update_self]
    · rw [Function.update_of_ne here, Function.update_of_ne (by omega), same]

theorem store_shift {m m' : Mem} {d j : Nat} (a : Nat) {w : Nat} (v : BitVec w) (same : m' (j + d) = m j) :
    m'.store (a + d) v (j + d) = m.store a v j :=
  write_shift a _ same

def Mem.copy (m : Mem) (dst src n : Nat) : Mem := fun j =>
  if dst ≤ j ∧ j < dst + n then m (src + (j - dst)) else m j

theorem copy_zero (m : Mem) (dst src : Nat) : m.copy dst src 0 = m :=
  funext fun _ => if_neg (by omega)

theorem copy_of_outside (m : Mem) (dst src n j : Nat) (h : j < dst ∨ dst + n ≤ j) :
    m.copy dst src n j = m j := if_neg (by omega)

theorem copy_succ (m : Mem) (dst src n : Nat) (h : dst + n < src) :
    m.copy dst src (n + 1) =
      Function.update (m.copy dst src n) (dst + n) (m.copy dst src n (src + n)) := by
  funext j
  rw [copy_of_outside m dst src n (src + n) (by omega)]
  by_cases hj : j = dst + n
  · subst hj
    rw [Function.update_self, Mem.copy, if_pos (by omega), Nat.add_sub_cancel_left]
  · rw [Function.update_of_ne hj, Mem.copy, Mem.copy]
    by_cases hj' : dst ≤ j ∧ j < dst + n
    · rw [if_pos hj', if_pos (by omega)]
    · rw [if_neg hj', if_neg (by omega)]

theorem load_copy_same (m : Mem) (dst src w : Nat) :
    (m.copy dst src (w / 8)).load w dst = m.load w src := by
  apply load_shift
  intro j hj
  rw [Mem.copy, if_pos (by omega), Nat.add_sub_cancel_left]

theorem load_copy_disjoint (m : Mem) (dst src n w a : Nat) (h : a + w / 8 ≤ dst ∨ dst + n ≤ a) :
    (m.copy dst src n).load w a = m.load w a :=
  load_congr fun j _ _ => copy_of_outside m dst src n j (by omega)

theorem load_byte (m : Mem) (a : Nat) : m.load 8 a = m a := by
  simp [Mem.load, Mem.read, ofBytes]

theorem store_byte (m : Mem) (a : Nat) (b : Byte) : m.store a b = Function.update m a b := by
  simp [Mem.store, toBytes, Mem.write]

end ByteMemory
