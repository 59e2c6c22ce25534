import Mathlib.Tactic.Common

/-!
# The vector unit

The vector unit computes on registers of 32 lanes, four sub-rows of eight, which it loads from and
stores to the rows of Dst. The lane semantics are those that the vector kernels document
(`ckernel_sfpu_matmul_fp32.h`). An instruction is a function on the state of the unit.
-/
namespace Libtt.Sfpu

abbrev Word := BitVec 32

/-- A vector register, lane `8 * i + j` of which is lane `j` of its sub-row `i`. -/
abbrev Lanes := Fin 4 → Fin 8 → Word

/-- The address rows of Dst, by face column. A tile has 64 of them, sixteen for each face. -/
abbrev Dst := Nat → Fin 16 → Word

theorem row_lt (row : Nat) : row % 4 < 4 := by omega

theorem column_lt (column : Nat) : column % 16 < 16 := by omega

theorem half_lt (column : Fin 16) : column.val / 2 < 8 := by omega

namespace Dst

/-- What `SFPLOAD` reads at an address, the even or the odd columns of four rows. -/
def load (dst : Dst) (addr : Nat) : Lanes :=
  fun i j => dst (addr / 4 * 4 + i) ⟨2 * j + addr / 2 % 2, by omega⟩

/-- Dst after `SFPSTORE` at an address. -/
def store (dst : Dst) (addr : Nat) (lanes : Lanes) : Dst := fun row column =>
  if row / 4 = addr / 4 ∧ column.val % 2 = addr / 2 % 2 then
    lanes ⟨row % 4, by omega⟩ ⟨column / 2, by omega⟩
  else dst row column

/-- The tile at some place of Dst, by tile row and column. -/
def tile (dst : Dst) (index row column : Nat) : Word :=
  dst (64 * index + 16 * (2 * (row / 16) + column / 16) + row % 16)
    ⟨column % 16, column_lt column⟩

/-- Slots do not overlap, and each has two addresses. -/
theorem load_store_slot (dst : Dst) (addr other : Nat) (lanes : Lanes) :
    (dst.store addr lanes).load other = if other / 2 = addr / 2 then lanes else dst.load other := by
  funext i j
  by_cases same : other / 2 = addr / 2
  · have row : (other / 4 * 4 + i.val) / 4 = addr / 4 := by omega
    have column : (2 * j.val + other / 2 % 2) % 2 = addr / 2 % 2 := by omega
    have subRow : (⟨(other / 4 * 4 + i.val) % 4, by omega⟩ : Fin 4) = i := Fin.ext (by
      show (other / 4 * 4 + i.val) % 4 = i.val
      omega)
    have lane : (⟨(2 * j.val + other / 2 % 2) / 2, by omega⟩ : Fin 8) = j := Fin.ext (by
      show (2 * j.val + other / 2 % 2) / 2 = j.val
      omega)
    rw [if_pos same, load, store, if_pos ⟨row, column⟩, subRow, lane]
  · have apart : ¬((other / 4 * 4 + i.val) / 4 = addr / 4 ∧
        (2 * j.val + other / 2 % 2) % 2 = addr / 2 % 2) := by omega
    rw [if_neg same, load, store, if_neg apart, load]

theorem load_store (dst : Dst) {addr other : Nat} (lanes : Lanes) (even : addr % 2 = 0)
    (otherEven : other % 2 = 0) :
    (dst.store addr lanes).load other = if other = addr then lanes else dst.load other := by
  have same : other / 2 = addr / 2 ↔ other = addr := by omega
  rw [load_store_slot]
  simp only [same]

/-- An element of a tile in the slot that holds it. -/
theorem tile_eq_load (dst : Dst) (index row column : Nat) :
    dst.tile index row column =
      dst.load (64 * index + (16 * (2 * (row / 16) + column / 16) + row % 16 / 4 * 4 +
        column % 2 * 2)) ⟨row % 4, by omega⟩ ⟨column % 16 / 2, by omega⟩ := by
  have rows : (64 * index + (16 * (2 * (row / 16) + column / 16) + row % 16 / 4 * 4 +
      column % 2 * 2)) / 4 * 4 + row % 4 =
      64 * index + 16 * (2 * (row / 16) + column / 16) + row % 16 := by omega
  have columns : 2 * (column % 16 / 2) + (64 * index + (16 * (2 * (row / 16) + column / 16) +
      row % 16 / 4 * 4 + column % 2 * 2)) / 2 % 2 = column % 16 := by omega
  simp only [tile, load, rows, columns]

end Dst

/-- What the vector unit works on, with the counter that it adds to addresses. -/
structure State where
  lreg : Nat → Lanes
  dst : Dst
  counter : Nat

/-- The register that holds zero. -/
def lconst0 : Nat := 9

/-- The register that holds twice the number of each lane. -/
def ltileid : Nat := 15

namespace State

variable (unit : State)

/-- What an instruction reads from a register. -/
def read (register : Nat) : Lanes :=
  if register = lconst0 then fun _ _ => 0
  else if register = ltileid then fun i j => BitVec.ofNat 32 (2 * (8 * i + j))
  else unit.lreg register

/-- Write a register. -/
def set (register : Nat) (lanes : Lanes) : State :=
  { unit with lreg := Function.update unit.lreg register lanes }

def sfpload (register addr : Nat) : State :=
  unit.set register (unit.dst.load (addr + unit.counter))

def sfpstore (register addr : Nat) : State :=
  { unit with dst := unit.dst.store (addr + unit.counter) (unit.read register) }

/-- `math::clear_dst_reg_addr`. -/
def clearDstRegAddr : State := { unit with counter := 0 }

/-- `SFPLOADI` of the upper half of a float. -/
def sfploadiFloatb (register : Nat) (imm : BitVec 16) : State :=
  unit.set register fun _ _ => imm.setWidth 32 <<< 16

def sfpmov (source target : Nat) : State := unit.set target (unit.read source)

/-- `SFPTRANSP`, which transposes the sub-rows of LREG0 to LREG3 and those of LREG4 to LREG7. -/
def sfptransp : State :=
  { unit with
    lreg := fun register =>
      if register < 8 then
        fun i => unit.lreg (register / 4 * 4 + i) ⟨register % 4, by omega⟩
      else unit.lreg register }

/-- `SFPCONFIG`, which broadcasts sub-row 0 of LREG0. -/
def sfpconfig (target : Nat) : State := unit.set target fun _ => unit.read 0 0

/-- `SFPSHFT2` in the mode that rotates each group of eight lanes right by one. -/
def sfpshft2Ror1 (source target : Nat) : State :=
  unit.set target fun i j => unit.read source i ⟨(j + 7) % 8, by omega⟩

def sfpand (source target : Nat) : State :=
  unit.set target fun i j => unit.read target i j &&& unit.read source i j

def sfpor (source target : Nat) : State :=
  unit.set target fun i j => unit.read target i j ||| unit.read source i j

def sfpxor (source target : Nat) : State :=
  unit.set target fun i j => unit.read target i j ^^^ unit.read source i j

def sfpnot (source target : Nat) : State := unit.set target fun i j => ~~~ unit.read source i j

/-- `SFPIADD` of a signed immediate. -/
def sfpiadd (imm : BitVec 12) (source target : Nat) : State :=
  unit.set target fun i j => unit.read source i j + imm.signExtend 32

/-- `SFPSHFT` by an immediate, to the right where that is negative. -/
def sfpshft (imm : BitVec 12) (target : Nat) (arithmetic : Bool) : State :=
  unit.set target fun i j =>
    if imm.msb then
      if arithmetic then (unit.read target i j).sshiftRight (-imm).toNat
      else unit.read target i j >>> (-imm).toNat
    else unit.read target i j <<< imm.toNat

/-- `SFPLOADMACRO` with the macro of a column group, which adds the product of `LREG[11 + group]`
and LREG4 to what it loads and stores the sum back, and the step of the address counter. -/
def sfploadmacro (mad : Word → Word → Word → Word) (group step addr : Nat) : State :=
  let sum : Lanes := fun i j =>
    mad (unit.read (11 + group) i j) (unit.read 4 i j)
      (unit.dst.load (addr + unit.counter) i j)
  { unit.set group sum with
    dst := unit.dst.store (addr + unit.counter) sum
    counter := unit.counter + step }

@[simp] theorem set_dst (register : Nat) (lanes : Lanes) :
    (unit.set register lanes).dst = unit.dst := rfl

@[simp] theorem set_counter (register : Nat) (lanes : Lanes) :
    (unit.set register lanes).counter = unit.counter := rfl

@[simp] theorem sfpstore_counter (register addr : Nat) :
    (unit.sfpstore register addr).counter = unit.counter := rfl

theorem set_lreg (register other : Nat) (lanes : Lanes) :
    (unit.set register lanes).lreg other = if other = register then lanes else unit.lreg other :=
  Function.update_apply unit.lreg register lanes other

/-- Registers other than the constant ones. -/
theorem read_eq {register : Nat} (notZero : register ≠ 9) (notId : register ≠ 15) :
    unit.read register = unit.lreg register := by
  rw [read, if_neg (show register ≠ lconst0 from notZero),
    if_neg (show register ≠ ltileid from notId)]

@[simp] theorem read_lconst0 : unit.read lconst0 = fun _ _ => 0 := rfl

@[simp] theorem read_ltileid :
    unit.read ltileid = fun i j => BitVec.ofNat 32 (2 * (8 * i.val + j.val)) := rfl

end State

end Libtt.Sfpu
