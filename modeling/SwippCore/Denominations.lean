import SwippCore.SelectCoins

/-!
# Choosing coins by denominations

`SelectCoinsByDenominations` has two tables of bits: one while some denomination of the mask is
missing, one after that. One turn of its loop ends it, keeps a coin back or takes it.
-/

set_option autoImplicit false

namespace SwippCore.Denominations
open AvailableCoins CoinSelection Masternode
open SelectCoins (total_nil total_cons total_append total_perm total_nonneg)
open DarkSendPool (darkSendDenominations getDenominations)

section Tables
variable (q : DenominateRequest)

def wanted (v : ℤ) : Bool := anyBits.any fun x => q.nDenom.testBit x.1 && v == x.2

def wantedFirst (v : ℤ) : Bool := missingBits.any fun x => q.nDenom.testBit x.1 && v == x.2

def allFound (d : Denominated) : Bool := darkSendDenominations.all fun x => d.found.contains x

def accepts (d : Denominated) (v : ℤ) : Bool := if allFound d then wanted q v else wantedFirst q v

def off : List ℤ := (anyBits.filter fun x => !q.nDenom.testBit x.1).map Prod.snd

variable (V : CoinView) (env : Env)

def inRounds (out : COutput) : Bool :=
  q.nDarksendRoundsMin ≤ q.rounds (prevout env out) && q.rounds (prevout env out) < q.nDarksendRoundsMax

def passes (out : COutput) : Bool :=
  !decide (value out < coin ∧ value out ≠ coin/10+100) &&
    !decide (q.fMasterNode = true ∧ value out = getMasternodeCollateralForBlock V.nHeight) && inRounds q env out

/-- `SelectCoinsByDenominations` with its two results, on the shuffled coins. -/
def selectByDenominations (nValueMax : ℤ) (vCoins : List COutput) : Bool × Denominated :=
  let r := takeDenominations V env q vCoins.length vCoins ⟨off q,0,nValueMax,[]⟩
  (r.1 || (q.nValueMin ≤ r.2.nValueRet && allFound r.2),r.2)

end Tables

section Turns
variable (q : DenominateRequest) (V : CoinView) (env : Env)

structure Lowered (d : Denominated) (n : ℤ) : Prop where
  le : n ≤ d.nValueMax
  five : 5 ≤ d.nValueMax → 5 ≤ n
  reason : n = d.nValueMax ∨ (allFound d = true ∧ q.nValueMin ≤ d.nValueRet)

def take (d : Denominated) (out : COutput) (n : ℤ) : Denominated :=
  ⟨value out::d.found,d.nValueRet+value out,n,d.setCoinsRet++[out]⟩

inductive TurnCase (d : Denominated) (out : COutput) : Option Denominated → Prop where
  | stops (hall : allFound d = true) (hmin : q.nValueMin ≤ d.nValueRet) : TurnCase d out none
  | keeps (n : ℤ) (hn : 5 ≤ d.nValueMax → Lowered q d n)
    (hskip : d.nValueMax < d.nValueRet+value out ∨ passes q V env out = false ∨
      accepts q d (value out) = false) : TurnCase d out (some { d with nValueMax := n })
  | takes (n : ℤ) (hn : 5 ≤ d.nValueMax → Lowered q d n) (hfit : d.nValueRet+value out ≤ d.nValueMax)
    (hpass : passes q V env out = true) (haccept : accepts q d (value out) = true) :
    TurnCase d out (some (take d out n))

theorem lowered_self (d : Denominated) : Lowered q d d.nValueMax := ⟨le_refl _,id,Or.inl rfl⟩

theorem lowered_random {d : Denominated} (r : ℕ) (hall : allFound d = true)
    (hmin : q.nValueMin ≤ d.nValueRet) (hmax : 5 ≤ d.nValueMax) :
    Lowered q d (d.nValueMax-r%(d.nValueMax/5)) := by
  have hpos : 0 < d.nValueMax/5 := by omega
  have hnonneg := Int.emod_nonneg (r : ℤ) (ne_of_gt hpos)
  have hlt := Int.emod_lt_of_pos (r : ℤ) hpos
  exact ⟨by omega,fun _ => by omega,Or.inr ⟨hall,hmin⟩⟩

def turn (nCoins : ℕ) (out : COutput) (d : Denominated) : Option Denominated :=
  if !passes q V env out || d.nValueMax < d.nValueRet+value out then some d
  else if allFound d then
    let fEnough := decide (q.nValueMin ≤ d.nValueRet)
    let n := if fEnough then d.nValueMax-(q.rand (prevout env out)).1%(d.nValueMax/5) else d.nValueMax
    if fEnough && (q.rand (prevout env out)).2%nCoins < d.setCoinsRet.length then none
    else if wanted q (value out) then some (take d out n)
    else some { d with nValueMax := n }
  else if wantedFirst q (value out) then some (take d out d.nValueMax)
  else some d

def after (nCoins : ℕ) (outs : List COutput) (d : Denominated) : Option Denominated → Bool × Denominated
  | none => (true,d)
  | some d => takeDenominations V env q nCoins outs d

theorem take_cons (nCoins : ℕ) (out : COutput) (outs : List COutput) (d : Denominated) :
    takeDenominations V env q nCoins (out::outs) d = after q V env nCoins outs d (turn q V env nCoins out d) := by
  unfold turn
  conv => lhs; unfold takeDenominations
  dsimp only
  split
  · rename_i hsmall
    have hnot : passes q V env out = false := by
      unfold passes
      rw [decide_eq_true hsmall]
      rfl
    rw [hnot]
    rfl
  · rename_i hlarge
    split
    · rename_i hmn
      have hnot : passes q V env out = false := by
        unfold passes
        rw [decide_eq_true hmn, Bool.not_true, Bool.and_false, Bool.false_and]
      rw [hnot]
      rfl
    · rename_i hnotmn
      split
      · rename_i hfull
        rw [decide_eq_true hfull, Bool.or_true]
        rfl
      · rename_i hfit
        split
        · rename_i hrounds
          have hnot : passes q V env out = false := by
            have hout : inRounds q env out = false := by
              unfold inRounds
              rw [Bool.and_eq_false_iff, decide_eq_false_iff_not, decide_eq_false_iff_not]
              omega
            unfold passes
            rw [hout, Bool.and_false]
          rw [hnot]
          rfl
        · rename_i hrounds
          have hpass : passes q V env out = true := by
            have hin : inRounds q env out = true := by
              unfold inRounds
              rw [Bool.and_eq_true, decide_eq_true_eq, decide_eq_true_eq]
              omega
            unfold passes
            rw [hin, decide_eq_false hlarge, decide_eq_false hnotmn]
            rfl
          rw [hpass, decide_eq_false hfit, Bool.not_true, Bool.false_or, if_neg Bool.false_ne_true]
          unfold allFound wanted wantedFirst take
          split
          · split
            · rfl
            · split
              · rfl
              · rfl
          · split
            · rfl
            · rfl

theorem turn_cases (nCoins : ℕ) (out : COutput) (d : Denominated) :
    TurnCase q V env d out (turn q V env nCoins out d) := by
  unfold turn
  split
  · rename_i hskip
    apply TurnCase.keeps d.nValueMax fun _ => lowered_self q d
    rw [Bool.or_eq_true, Bool.not_eq_true', decide_eq_true_eq] at hskip
    rcases hskip with h | h
    · exact Or.inr (Or.inl h)
    · exact Or.inl h
  · rename_i hgo
    rw [Bool.or_eq_true, Bool.not_eq_true', decide_eq_true_eq, not_or] at hgo
    have hpass : passes q V env out = true := eq_true_of_ne_false hgo.1
    have hfit : d.nValueRet+value out ≤ d.nValueMax := not_lt.mp hgo.2
    split
    · rename_i hall
      have hn : 5 ≤ d.nValueMax → Lowered q d (if decide (q.nValueMin ≤ d.nValueRet) = true then
          d.nValueMax-(q.rand (prevout env out)).1%(d.nValueMax/5) else d.nValueMax) := by
        intro hmax
        split
        · rename_i hmin
          exact lowered_random q _ hall (of_decide_eq_true hmin) hmax
        · exact lowered_self q d
      dsimp only
      split
      · rename_i hstop
        rw [Bool.and_eq_true, decide_eq_true_eq] at hstop
        exact .stops hall hstop.1
      · split
        · rename_i hwanted
          exact .takes _ hn hfit hpass (by unfold accepts; rw [if_pos hall]; exact hwanted)
        · rename_i hwanted
          refine .keeps _ hn (Or.inr (Or.inr ?_))
          unfold accepts
          rw [if_pos hall]
          exact eq_false_of_ne_true hwanted
    · rename_i hmissing
      split
      · rename_i hwanted
        exact .takes _ (fun _ => lowered_self q d) hfit hpass (by unfold accepts; rw [if_neg hmissing]; exact hwanted)
      · rename_i hwanted
        refine .keeps d.nValueMax (fun _ => lowered_self q d) (Or.inr (Or.inr ?_))
        unfold accepts
        rw [if_neg hmissing]
        exact eq_false_of_ne_true hwanted

end Turns

end SwippCore.Denominations
