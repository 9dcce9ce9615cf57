import Gem5.Base.AddrRange
import Gem5.Base.Bitfield

/-!
# `Gem5.Arch.Riscv.PMP`: physical memory protection

The model of `src/arch/riscv/pmp.cc`. The table holds, for each entry, the two registers and the
address range that `pmpUpdateRule` computed from them.

`std::pow` on small powers of two is exact. The table is value-initialised, so the registers
start at 0. Writes to an entry that the table does not have are `none`. Warnings are left out.
-/

namespace Gem5.Arch.Riscv

open Gem5.Base

/-- `BaseMMU::Mode`. -/
inductive Mode where
  | read
  | write
  | execute
  deriving Repr, DecidableEq

/-- `PrivilegeMode`. -/
inductive PrivilegeMode where
  | user
  | supervisor
  | machine
  deriving Repr, DecidableEq

/-- The fields of `MISCREG_STATUS` that are read. -/
structure Status where
  mprv : Bool
  mpp : PrivilegeMode
  deriving Repr, DecidableEq

/-- The `ExceptionCode`s of access faults. -/
inductive ExceptionCode where
  | loadAccess
  | storeAccess
  | instAccess
  deriving Repr, DecidableEq

/-- `AddressFault`. -/
structure AddressFault where
  vaddr : BitVec 64
  code : ExceptionCode
  deriving Repr, DecidableEq

/-- The `Request`: the virtual address is missing in a page table walk. -/
structure Request where
  vaddr : Option (BitVec 64)
  paddr : BitVec 64
  size : BitVec 32
  deriving Repr, DecidableEq

/-- `pmpAmatch`. -/
inductive PmpAmatch where
  | off
  | tor
  | na4
  | napot
  deriving Repr, DecidableEq

/-- `PmpEntry`. -/
structure PmpEntry where
  pmpAddr : AddrRange
  rawAddr : BitVec 64
  pmpCfg : BitVec 8
  deriving Repr, DecidableEq

/-- `PMP`. `pmpEntries` is the length of the table. -/
structure PMP where
  pmpTable : List PmpEntry
  numRules : Nat
  deriving Repr, DecidableEq

namespace PMP

/-- The entry of a fresh table. -/
def emptyEntry : PmpEntry :=
  { pmpAddr := AddrRange.plain 0 0, rawAddr := 0, pmpCfg := 0 }

/-- The constructor. -/
def new (pmpEntries : Nat) : PMP :=
  { pmpTable := List.replicate pmpEntries emptyEntry, numRules := 0 }

variable (cfg : BitVec 8)

/-- `pmpGetAField`. -/
def pmpGetAField : PmpAmatch :=
  match ((cfg >>> 3) &&& 0x03).toNat with
  | 0 => .off
  | 1 => .tor
  | 2 => .na4
  | _ => .napot

/-- `pmpDecodeNapot`. -/
def pmpDecodeNapot (pmpaddr : BitVec 64) : AddrRange :=
  if pmpaddr = -1 then AddrRange.plain 0 (-1)
  else
    let t1 := ctz64 (~~~ pmpaddr)
    let range := BitVec.ofNat 64 (2 ^ (t1 + 3) - 1)
    let base := mbits pmpaddr 63 t1 <<< 2
    AddrRange.plain base (base + range)

/-- The range that `pmpUpdateRule` computes. -/
def pmpRange (prevAddr thisAddr : BitVec 64) (thisCfg : BitVec 8) : AddrRange :=
  match pmpGetAField thisCfg with
  | .off => AddrRange.plain 0 0
  | .tor => AddrRange.plain (prevAddr <<< 2) ((thisAddr <<< 2) - 1)
  | .na4 => AddrRange.plain (thisAddr <<< 2) ((thisAddr + 4) - 1)
  | .napot => pmpDecodeNapot thisAddr

/-- The entry is not off. -/
def active : Bool :=
  pmpGetAField cfg != .off

/-- `prevAddr` in `pmpUpdateRule`. -/
def prevAddr (table : List PmpEntry) (pmpIndex : Nat) : BitVec 64 :=
  if pmpIndex ≥ 1 then ((table[pmpIndex - 1]?).map fun e => e.rawAddr).getD 0 else 0

variable (p : PMP) (pmpIndex : Nat)

/-- `pmpUpdateRule`. -/
def pmpUpdateRule : PMP :=
  let table := p.pmpTable.modify pmpIndex fun e =>
    { e with pmpAddr := pmpRange (prevAddr p.pmpTable pmpIndex) e.rawAddr e.pmpCfg }
  { pmpTable := table, numRules := table.countP fun e => active e.pmpCfg }

/-- `pmpUpdateCfg`. -/
def pmpUpdateCfg (thisCfg : BitVec 8) : Option PMP :=
  if pmpIndex < p.pmpTable.length then
    some (pmpUpdateRule
      { p with pmpTable := p.pmpTable.modify pmpIndex fun e => { e with pmpCfg := thisCfg } }
      pmpIndex)
  else none

/-- `pmpUpdateAddr`. -/
def pmpUpdateAddr (thisAddr : BitVec 64) : Option PMP :=
  if pmpIndex < p.pmpTable.length then
    let p :=
      { p with pmpTable := p.pmpTable.modify pmpIndex fun e => { e with rawAddr := thisAddr } }
    some ((List.range p.pmpTable.length).foldl pmpUpdateRule p)
  else none

/-- `shouldCheckPMP`. -/
def shouldCheckPMP (pmode : PrivilegeMode) (mode : Mode) (status : Status) : Bool :=
  let cond1 := mode == .execute && pmode != .machine
  let cond2 := mode != .execute && pmode != .machine && !status.mprv
  let cond3 := mode != .execute && status.mprv && status.mpp != .machine
  cond1 || cond2 || cond3

/-- `createAddrfault`. -/
def createAddrfault (vaddr : BitVec 64) (mode : Mode) : AddressFault :=
  { vaddr := vaddr
    code := match mode with
      | .read => .loadAccess
      | .write => .storeAccess
      | .execute => .instAccess }

/-- The test of the loop: the range contains the address and the address plus the size. -/
def holds (range : AddrRange) (req : Request) : Bool :=
  range.contains req.paddr && range.contains (req.paddr + req.size.zeroExtend 64)

/-- The permission bit of the mode: `PMP_READ`, `PMP_WRITE` or `PMP_EXEC`. -/
def permits : Mode → Bool
  | .read => cfg.getLsbD 0
  | .write => cfg.getLsbD 1
  | .execute => cfg.getLsbD 2

/-- The loop of `pmpCheck`. `matched` is the entry of `match_index`, and `fault` is what it
returns when the access is not allowed. -/
def checkLoop (req : Request) (mode : Mode) (fault : AddressFault) :
    Option PmpEntry → List PmpEntry → Option AddressFault
  | _, [] => some fault
  | matched, e :: rest =>
    let matched := if holds e.pmpAddr req then some e else matched
    match matched with
    | some m =>
      if active m.pmpCfg then
        if permits m.pmpCfg mode then none else some fault
      else checkLoop req mode fault matched rest
    | none => checkLoop req mode fault matched rest

/-- `pmpCheck`. `none` is `NoFault`. -/
def pmpCheck (req : Request) (mode : Mode) (pmode : PrivilegeMode) (status : Status)
    (vaddr : BitVec 64) : Option AddressFault :=
  if !shouldCheckPMP pmode mode status then none
  else if p.numRules == 0 || pmode == .machine then none
  else checkLoop req mode (createAddrfault (req.vaddr.getD vaddr) mode) none p.pmpTable

/-! ### Writes -/

/-- The writes to the registers. -/
inductive Write where
  | addr (pmpIndex : Nat) (thisAddr : BitVec 64)
  | cfg (pmpIndex : Nat) (thisCfg : BitVec 8)
  deriving Repr, DecidableEq

/-- One write. -/
def write : Write → Option PMP
  | .addr pmpIndex thisAddr => p.pmpUpdateAddr pmpIndex thisAddr
  | .cfg pmpIndex thisCfg => p.pmpUpdateCfg pmpIndex thisCfg

end PMP

end Gem5.Arch.Riscv
