import SwippCore.LoadBlockIndex

/-!
# The target that the next block has to meet

The target follows the time between the last two blocks of a proof type, block by
block, below the limit of that type. A chain is given by its entries from the last
one down to the first.
-/

set_option autoImplicit false

namespace SwippCore.TargetRequired
open LeadingBytes LoadBlockIndex

def getCompact (n : ℤ) : ℕ :=
  size n.natAbs%256*2^24+word n.natAbs+(if n < 0 then 2^23 else 0)

theorem set_get_compact (n : ℕ) (h : size n < 256) : setCompact (getCompact n) = cut n := by
  have hw := word_lt n
  have hcompact : getCompact n = size n*2^24+word n := by
    rw [getCompact, Int.natAbs_natCast, Nat.mod_eq_of_lt h, if_neg (by omega), Nat.add_zero]
  have hdiv : (size n*2^24+word n)/2^24 = size n := by omega
  have hmod : (size n*2^24+word n)%2^24 = word n := by omega
  have hsign : ¬2^23 ≤ word n := by omega
  unfold setCompact
  simp only [hcompact, hdiv, hmod, Nat.mod_eq_of_lt hw, if_neg hsign]
  split_ifs with hs
  · rw [word_of_short hs]
  · rw [word_of_long hs]

section Code
variable (env : Env)

def isProtocolV2 (nHeight : ℤ) : Bool := env.testNet || decide (0 < nHeight)

def bnProofOfWorkLimit (testNet : Bool) : ℤ := if testNet then 2^(256-16)-1 else 2^(256-20)-1

def bnProofOfStakeLimit : ℤ := 2^(256-20)-1
def bnProofOfStakeLimitV2 : ℤ := 2^(256-34)-1

def getProofOfStakeLimit (nHeight : ℤ) : ℤ :=
  if isProtocolV2 env nHeight then bnProofOfStakeLimitV2 else bnProofOfStakeLimit

def nTargetTimespan : ℤ := 30*60
def nTargetSpacing : ℤ := 120
def nInterval : ℤ := nTargetTimespan/nTargetSpacing

/-- `GetLastBlockIndex`, with the chain down from the block found. -/
def getLastBlockIndex (fProofOfStake : Bool) : List CBlockIndex → List CBlockIndex
  | [] => []
  | [i] => [i]
  | i::j::is =>
    if isProofOfStake i.nFlags ≠ fProofOfStake then getLastBlockIndex fProofOfStake (j::is)
    else i::j::is

def lastTwo (fProofOfStake : Bool) (chain : List CBlockIndex) : Option (CBlockIndex × CBlockIndex) :=
  match getLastBlockIndex fProofOfStake chain with
  | pindexPrev::j::is =>
    match getLastBlockIndex fProofOfStake (j::is) with
    | pindexPrevPrev::_::_ => some (pindexPrev,pindexPrevPrev)
    | _ => none
  | _ => none

def actualSpacing (pindexPrev pindexPrevPrev : CBlockIndex) : ℤ :=
  let nActualSpacing := (pindexPrev.nTime : ℤ)-pindexPrevPrev.nTime
  if nActualSpacing < 0 then nTargetSpacing else nActualSpacing

def factor (nActualSpacing : ℤ) : ℤ :=
  (nInterval-1)*nTargetSpacing+nActualSpacing+nActualSpacing

def divisor : ℤ := (nInterval+1)*nTargetSpacing

def bnNew (bnTargetLimit : ℤ) (nBits : ℕ) (nActualSpacing : ℤ) : ℤ :=
  let bnNew := (setCompact nBits*factor nActualSpacing).tdiv divisor
  if bnNew ≤ 0 ∨ bnTargetLimit < bnNew then bnTargetLimit else bnNew

/-- `GetNextTargetRequired`; the height is read through the pointer before that is tested. -/
def getNextTargetRequired (chain : List CBlockIndex) (fProofOfStake : Bool) : Option ℕ :=
  match chain, fProofOfStake with
  | [], true => none
  | [], false => some (getCompact env.proofOfWorkLimit)
  | i::is, f =>
    let bnTargetLimit := if f then getProofOfStakeLimit env i.nHeight else env.proofOfWorkLimit
    match lastTwo f (i::is) with
    | none => some (getCompact bnTargetLimit)
    | some (pindexPrev,pindexPrevPrev) => some (getCompact
        (bnNew bnTargetLimit pindexPrev.nBits (actualSpacing pindexPrev pindexPrevPrev)))

def targetLimit (chain : List CBlockIndex) (fProofOfStake : Bool) : ℤ :=
  match chain, fProofOfStake with
  | i::_, true => getProofOfStakeLimit env i.nHeight
  | _, _ => env.proofOfWorkLimit

def futureDrift (nTime : ℤ) : ℤ := nTime+10*60

def nMedianTimeSpan : ℕ := 11

def getMedianTimePast (chain : List CBlockIndex) : ℤ :=
  let pmedian := ((chain.take nMedianTimeSpan).map fun i => (i.nTime : ℤ)).insertionSort (· ≤ ·)
  pmedian.getD (pmedian.length/2) 0

def getPastTimeLimit : List CBlockIndex → ℤ
  | [] => 0
  | i::is => if isProtocolV2 env i.nHeight then i.nTime-120 else getMedianTimePast (i::is)

def Admits (i j : CBlockIndex) (is : List CBlockIndex) : Prop :=
  i.nHeight = j.nHeight+1 ∧
  getNextTargetRequired env (j::is) (isProofOfStake i.nFlags) = some i.nBits ∧
  getPastTimeLimit env (j::is) < i.nTime ∧ (j.nTime : ℤ) ≤ futureDrift i.nTime

instance (i j : CBlockIndex) (is : List CBlockIndex) : Decidable (Admits env i j is) :=
  inferInstanceAs (Decidable (_ ∧ _ ∧ _ ∧ _))

def Accepted : List CBlockIndex → Prop
  | [] => True
  | [i] => i.nHeight = 0
  | i::j::is => Admits env i j is ∧ Accepted (j::is)

end Code

section Encoding

theorem encoded (x : ℤ) (hpos : 0 < x) (hlt : x < 2^256) :
    setCompact (getCompact x) = cut x.toNat ∧ 0 < setCompact (getCompact x) ∧
      setCompact (getCompact x) ≤ x := by
  obtain ⟨n,rfl⟩ := Int.eq_ofNat_of_zero_le (Int.le_of_lt hpos)
  have hsize : size n < 256 := by
    have hle := size_le n 32 (by omega)
    omega
  have hcut := set_get_compact n hsize
  have hn : 0 < n := by omega
  have hp := cut_pos hn
  have hl := cut_le n
  rw [hcut]
  exact ⟨rfl,by omega,by omega⟩

theorem encoded_mono {x y : ℤ} (hpos : 0 < x) (hxy : x ≤ y) (hlt : y < 2^256) :
    setCompact (getCompact x) ≤ setCompact (getCompact y) := by
  rw [(encoded x hpos (by omega)).1, (encoded y (by omega) hlt).1]
  have hcut := cut_mono x.toNat y.toNat (by omega)
  omega

end Encoding

section Retarget

theorem factor_eq (s : ℤ) : factor s = 1680+2*s := by
  have h : (nInterval-1)*nTargetSpacing = 1680 := by decide
  rw [factor, h]
  omega

theorem actual_spacing_nonneg (p q : CBlockIndex) : 0 ≤ actualSpacing p q := by
  unfold actualSpacing
  dsimp only
  split_ifs
  · decide
  · omega

theorem bn_new_bounds {limit : ℤ} (hlimit : 0 < limit) (nBits : ℕ) (s : ℤ) :
    0 < bnNew limit nBits s ∧ bnNew limit nBits s ≤ limit := by
  unfold bnNew
  dsimp only
  split_ifs with h
  · exact ⟨hlimit,Int.le_refl _⟩
  · rw [not_or] at h
    omega

/-- A longer spacing gives no smaller target, unless the shorter one takes a target to zero. -/
theorem bn_new_mono (limit : ℤ) {nBits : ℕ} {s t : ℤ} (hs : 0 ≤ s) (hst : s ≤ t)
    (hzero : 0 < setCompact nBits → divisor ≤ setCompact nBits*factor s) :
    bnNew limit nBits s ≤ bnNew limit nBits t := by
  have hfs : factor s ≤ factor t := by
    rw [factor_eq, factor_eq]
    omega
  have hfpos : 0 < factor s := by
    rw [factor_eq]
    omega
  have hdiv : (0 : ℤ) < divisor := by decide
  rcases Int.lt_or_le 0 (setCompact nBits) with hbits | hbits
  · have hmul : setCompact nBits*factor s ≤ setCompact nBits*factor t :=
      Int.mul_le_mul_of_nonneg_left hfs (Int.le_of_lt hbits)
    have hge := hzero hbits
    have hquot : (setCompact nBits*factor s).tdiv divisor ≤ (setCompact nBits*factor t).tdiv divisor := by
      rw [Int.tdiv_eq_ediv_of_nonneg (by omega), Int.tdiv_eq_ediv_of_nonneg (by omega)]
      exact Int.ediv_le_ediv hdiv hmul
    have hone : 1 ≤ (setCompact nBits*factor s).tdiv divisor := by
      rw [Int.tdiv_eq_ediv_of_nonneg (by omega), Int.le_ediv_iff_mul_le hdiv]
      omega
    unfold bnNew
    dsimp only
    split_ifs <;> omega
  · have hneg : ∀ u, 0 < factor u → (setCompact nBits*factor u).tdiv divisor ≤ 0 := by
      intro u hu
      have hprod : setCompact nBits*factor u ≤ 0 :=
        Int.mul_nonpos_of_nonpos_of_nonneg hbits (Int.le_of_lt hu)
      have hquot : 0 ≤ (-(setCompact nBits*factor u)).tdiv divisor :=
        Int.tdiv_nonneg (by omega) (Int.le_of_lt hdiv)
      rw [Int.neg_tdiv] at hquot
      omega
    have h1 := hneg s hfpos
    have h2 := hneg t (by omega)
    unfold bnNew
    dsimp only
    rw [if_pos (Or.inl h1), if_pos (Or.inl h2)]

end Retarget

section Required
variable {env : Env} (hnet : env.proofOfWorkLimit = bnProofOfWorkLimit env.testNet)
include hnet

theorem target_limit_bounds (chain : List CBlockIndex) (f : Bool) :
    0 < targetLimit env chain f ∧ targetLimit env chain f ≤ env.proofOfWorkLimit ∧
      env.proofOfWorkLimit < 2^256 := by
  have hwork : 2^236-1 ≤ env.proofOfWorkLimit ∧ env.proofOfWorkLimit < 2^256 := by
    rw [hnet, bnProofOfWorkLimit]
    split_ifs <;> constructor <;> decide
  have hstake : ∀ h, 0 < getProofOfStakeLimit env h ∧ getProofOfStakeLimit env h ≤ 2^236-1 := by
    intro h
    unfold getProofOfStakeLimit
    split_ifs <;> constructor <;> decide
  unfold targetLimit
  split
  · rename_i i is
    obtain ⟨h1,h2⟩ := hstake i.nHeight
    exact ⟨h1,by omega,hwork.2⟩
  · exact ⟨by omega,Int.le_refl _,hwork.2⟩

variable {chain : List CBlockIndex}

theorem required_cases {f : Bool} (hc : chain ≠ [] ∨ f = false) :
    ∃ x, getNextTargetRequired env chain f = some (getCompact x) ∧ 0 < x ∧
      x ≤ targetLimit env chain f := by
  obtain ⟨hpos,-,-⟩ := target_limit_bounds hnet chain f
  cases chain with
  | nil =>
    obtain rfl := hc.resolve_left fun h => h rfl
    exact ⟨env.proofOfWorkLimit,rfl,hpos,Int.le_refl _⟩
  | cons i is =>
    have hlimit : (if f then getProofOfStakeLimit env i.nHeight else env.proofOfWorkLimit) =
        targetLimit env (i::is) f := by cases f <;> rfl
    unfold getNextTargetRequired
    simp only [hlimit]
    cases lastTwo f (i::is) with
    | none => exact ⟨_,rfl,hpos,Int.le_refl _⟩
    | some pq =>
      obtain ⟨p,q⟩ := pq
      obtain ⟨h1,h2⟩ := bn_new_bounds hpos p.nBits (actualSpacing p q)
      exact ⟨_,rfl,h1,h2⟩

section
variable {f : Bool} {nBits : ℕ} (hc : chain ≠ [] ∨ f = false)
  (h : getNextTargetRequired env chain f = some nBits)
include f hc h

theorem required_target :
    0 < setCompact nBits ∧ setCompact nBits ≤ targetLimit env chain f := by
  obtain ⟨x,hx,hpos,hle⟩ := required_cases hnet hc
  obtain ⟨-,hwork,hlt⟩ := target_limit_bounds hnet chain f
  obtain rfl := Option.some.inj (hx.symm.trans h)
  obtain ⟨-,hgt,hcut⟩ := encoded x hpos (by omega)
  exact ⟨hgt,Int.le_trans hcut hle⟩

theorem required_in_range (best : Best) (hash : Uint256)
    (hhash : (hash.toNat : ℤ) ≤ setCompact nBits) :
    checkProofOfWork env best hash nBits = true := by
  obtain ⟨hgt,hle⟩ := required_target hnet hc h
  obtain ⟨-,hwork,-⟩ := target_limit_bounds hnet chain f
  have hlow : ¬setCompact nBits ≤ 0 := by omega
  have hhigh : ¬env.proofOfWorkLimit < setCompact nBits := by omega
  have hmeets : ¬setCompact nBits < hash.toNat := by omega
  simp only [checkProofOfWork, hlow, hhigh, hmeets, decide_false, Bool.or_self, Bool.false_eq_true,
    if_false]

end

end Required

section Chains
variable (env : Env)

theorem accepted_last (f : Bool) : ∀ chain, Accepted env chain →
    Accepted env (getLastBlockIndex f chain)
  | [], _ => True.intro
  | [_], h => h
  | i::j::is, h => by
    rw [getLastBlockIndex]
    split_ifs
    · exact accepted_last f (j::is) h.2
    · exact h

theorem accepted_height (i j : CBlockIndex) {is : List CBlockIndex} (h : Accepted env (i::j::is)) :
    0 < i.nHeight := by
  induction is generalizing i j with
  | nil =>
    obtain ⟨⟨hheight,-⟩,hfirst⟩ := h
    have hzero : j.nHeight = 0 := hfirst
    omega
  | cons k is ih =>
    have hj := ih j k h.2
    have hheight := h.1.1
    omega

variable {f : Bool} {chain : List CBlockIndex} {p q : CBlockIndex}

theorem last_two (h : lastTwo f chain = some (p,q)) :
    ∃ j is, getLastBlockIndex f chain = p::j::is := by
  unfold lastTwo at h
  split at h
  · rename_i p' j is hlast
    split at h
    · obtain ⟨rfl,-⟩ := Prod.mk.inj (Option.some.inj h)
      exact ⟨j,is,hlast⟩
    · cases h
  · cases h

theorem last_two_tip (h : lastTwo f chain = some (p,q)) : ∃ i j is, chain = i::j::is := by
  obtain ⟨j,is,hlast⟩ := last_two h
  match chain, hlast with
  | i::k::ks, _ => exact ⟨i,k,ks,rfl⟩

theorem limit_same {chain' : List CBlockIndex} {p' q' : CBlockIndex} (hacc : Accepted env chain)
    (hacc' : Accepted env chain') (h : lastTwo f chain = some (p,q))
    (h' : lastTwo f chain' = some (p',q')) :
    targetLimit env chain f = targetLimit env chain' f := by
  obtain ⟨i,j,is,rfl⟩ := last_two_tip h
  obtain ⟨i',j',is',rfl⟩ := last_two_tip h'
  have hi := accepted_height env i j hacc
  have hi' := accepted_height env i' j' hacc'
  cases f with
  | false => rfl
  | true => simp [targetLimit, getProofOfStakeLimit, isProtocolV2, hi, hi']

theorem required_of_last_two (h : lastTwo f chain = some (p,q)) :
    getNextTargetRequired env chain f = some (getCompact
      (bnNew (targetLimit env chain f) p.nBits (actualSpacing p q))) := by
  obtain ⟨i,j,is,rfl⟩ := last_two_tip h
  unfold getNextTargetRequired
  simp only [h]
  cases f <;> rfl

theorem last_target_pos (hnet : env.proofOfWorkLimit = bnProofOfWorkLimit env.testNet)
    (hacc : Accepted env chain) (h : lastTwo f chain = some (p,q)) : 0 < setCompact p.nBits := by
  obtain ⟨j,is,hlast⟩ := last_two h
  have hadmits := accepted_last env f chain hacc
  rw [hlast] at hadmits
  exact (required_target hnet (Or.inl (List.cons_ne_nil j is)) hadmits.1.2.1).1

theorem longer_spacing (hnet : env.proofOfWorkLimit = bnProofOfWorkLimit env.testNet)
    {chain' : List CBlockIndex} {p' q' : CBlockIndex} (hacc : Accepted env chain)
    (hacc' : Accepted env chain') (h : lastTwo f chain = some (p,q))
    (h' : lastTwo f chain' = some (p',q')) (hbits : p.nBits = p'.nBits)
    (hspacing : actualSpacing p q ≤ actualSpacing p' q')
    (hquot : divisor ≤ setCompact p.nBits*factor (actualSpacing p q)) :
    ∃ nBits nBits', getNextTargetRequired env chain f = some nBits ∧
      getNextTargetRequired env chain' f = some nBits' ∧ setCompact nBits ≤ setCompact nBits' := by
  refine ⟨_,_,required_of_last_two env h,required_of_last_two env h',?_⟩
  obtain ⟨hpos,hwork,hlt⟩ := target_limit_bounds hnet chain f
  rw [← limit_same env hacc hacc' h h', ← hbits]
  have hmono := bn_new_mono (targetLimit env chain f) (actual_spacing_nonneg p q)
    hspacing fun _ => hquot
  have hlow := (bn_new_bounds hpos p.nBits (actualSpacing p q)).1
  have hhigh := (bn_new_bounds hpos p.nBits (actualSpacing p' q')).2
  exact encoded_mono hlow hmono (by omega)

end Chains

/-- A required target is positive, within the limit of its type and passes the range check
for every hash below it. The numbers it is made of stay positive along a chain, and a longer
spacing gives no smaller target unless the quotient of the shorter one has reached zero. -/
theorem targets_required (env : Env)
    (hnet : env.proofOfWorkLimit = bnProofOfWorkLimit env.testNet) :
    (∀ chain f, chain ≠ [] ∨ f = false →
      ∃ nBits, getNextTargetRequired env chain f = some nBits ∧ 0 < setCompact nBits ∧
        setCompact nBits ≤ targetLimit env chain f ∧
        ∀ best hash, (hash.toNat : ℤ) ≤ setCompact nBits →
          checkProofOfWork env best hash nBits = true) ∧
    (∀ chain f p q, Accepted env chain → lastTwo f chain = some (p,q) →
      0 < divisor ∧ 0 ≤ actualSpacing p q ∧ 0 < setCompact p.nBits ∧
      0 < setCompact p.nBits*factor (actualSpacing p q) ∧
      0 ≤ (setCompact p.nBits*factor (actualSpacing p q)).tdiv divisor ∧
      0 < bnNew (targetLimit env chain f) p.nBits (actualSpacing p q)) ∧
    (∀ chain chain' f p q p' q', Accepted env chain → Accepted env chain' →
      lastTwo f chain = some (p,q) → lastTwo f chain' = some (p',q') →
      p.nBits = p'.nBits → actualSpacing p q ≤ actualSpacing p' q' →
      0 < (setCompact p.nBits*factor (actualSpacing p q)).tdiv divisor →
      ∃ nBits nBits', getNextTargetRequired env chain f = some nBits ∧
        getNextTargetRequired env chain' f = some nBits' ∧
        setCompact nBits ≤ setCompact nBits') := by
  refine ⟨?_,?_,?_⟩
  · intro chain f hc
    obtain ⟨x,hx,-,-⟩ := required_cases hnet hc
    obtain ⟨hgt,hle⟩ := required_target hnet hc hx
    exact ⟨_,hx,hgt,hle,required_in_range hnet hc hx⟩
  · intro chain f p q hacc h
    have hspacing := actual_spacing_nonneg p q
    have hbits := last_target_pos env hnet hacc h
    have hfactor : 0 < factor (actualSpacing p q) := by
      rw [factor_eq]
      omega
    have hprod := Int.mul_pos hbits hfactor
    have hlimit := (target_limit_bounds hnet chain f).1
    exact ⟨by decide,hspacing,hbits,hprod,Int.tdiv_nonneg (Int.le_of_lt hprod) (by decide),
      (bn_new_bounds hlimit p.nBits _).1⟩
  · intro chain chain' f p q p' q' hacc hacc' h h' hbits hspacing hquot
    have hpos := last_target_pos env hnet hacc h
    have hdivisor : divisor ≤ setCompact p.nBits*factor (actualSpacing p q) := by
      by_contra hlt
      have hfactor : 0 < factor (actualSpacing p q) := by
        rw [factor_eq]
        have hnonneg := actual_spacing_nonneg p q
        omega
      have hprod := Int.mul_pos hpos hfactor
      rw [Int.tdiv_eq_zero_of_lt (Int.le_of_lt hprod) (by omega)] at hquot
      omega
    exact longer_spacing env hnet hacc hacc' h h' hbits hspacing hdivisor

def mainEnv : Env := { sampleEnv with proofOfWorkLimit := bnProofOfWorkLimit false }

def workBlock (nHeight : ℤ) (nTime nBits : ℕ) : CBlockIndex :=
  ⟨0,none,none,0,0,0,nHeight,0,0,0,0,⟨0,0⟩,0,0,0,0,nTime,nBits,0⟩

def timedChain (nTime : ℕ) : List CBlockIndex :=
  [workBlock 2 nTime 0x1e0fffff, workBlock 1 1000 0x1e0fffff, workBlock 0 0 0]

/-- A spacing of ten minutes gives no smaller target than one of a minute. -/
theorem minute_and_ten : ∃ nBits nBits',
    getNextTargetRequired mainEnv (timedChain 1060) false = some nBits ∧
    getNextTargetRequired mainEnv (timedChain 1600) false = some nBits' ∧
    setCompact nBits ≤ setCompact nBits' :=
  (targets_required mainEnv rfl).2.2 (timedChain 1060) (timedChain 1600) false
    (workBlock 2 1060 0x1e0fffff) (workBlock 1 1000 0x1e0fffff)
    (workBlock 2 1600 0x1e0fffff) (workBlock 1 1000 0x1e0fffff)
    ⟨by decide +kernel,by decide +kernel,rfl⟩ ⟨by decide +kernel,by decide +kernel,rfl⟩
    rfl rfl rfl (by decide) (by decide +kernel)

/-- A second less than no spacing counts as the target spacing and gives a larger target
than no spacing, between blocks that are accepted. -/
theorem negative_spacing_larger :
    ¬∀ chain chain' f p q p' q', Accepted mainEnv chain → Accepted mainEnv chain' →
      lastTwo f chain = some (p,q) → lastTwo f chain' = some (p',q') → p.nBits = p'.nBits →
      (p.nTime : ℤ)-q.nTime ≤ (p'.nTime : ℤ)-q'.nTime →
      ∀ nBits nBits', getNextTargetRequired mainEnv chain f = some nBits →
        getNextTargetRequired mainEnv chain' f = some nBits' →
        setCompact nBits ≤ setCompact nBits' := by
  intro h
  have hless := h (timedChain 999) (timedChain 1000) false
    (workBlock 2 999 0x1e0fffff) (workBlock 1 1000 0x1e0fffff)
    (workBlock 2 1000 0x1e0fffff) (workBlock 1 1000 0x1e0fffff)
    ⟨by decide +kernel,by decide +kernel,rfl⟩ ⟨by decide +kernel,by decide +kernel,rfl⟩
    rfl rfl rfl (by decide) _ _ rfl rfl
  revert hless
  decide +kernel

end SwippCore.TargetRequired
