import Mathlib.Data.Nat.Notation

/-!
# Virtual addresses (threads/vaddr.h)

Addresses are 32-bit numbers. Where a sum or a difference of addresses stays in
that range it is a sum of naturals here; the caller that can leave the range
reduces it.
-/

namespace Pintos.Threads

def physBase : Nat := 0xc0000000

def pgSize : Nat := 4096

/-- `pg_no` -/
def pgNo (va : Nat) : Nat := va / pgSize

/-- `pg_ofs` -/
def pgOfs (va : Nat) : Nat := va % pgSize

/-- `is_user_vaddr` -/
def isUserVaddr (va : Nat) : Bool := decide (va < physBase)

/-- `pg_round_up` -/
def pgRoundUp (va : Nat) : Nat := (va + pgSize - 1) / pgSize * pgSize

/-- `ptov` past its ASSERT. -/
def ptov (paddr : Nat) : Nat := paddr + physBase

/-- `vtop` past its ASSERT. -/
def vtop (vaddr : Nat) : Nat := vaddr - physBase

/-- `DIV_ROUND_UP` -/
def divRoundUp (x step : Nat) : Nat := (x + step - 1) / step

end Pintos.Threads
