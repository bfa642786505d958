import SwippCore.MasternodePayments
import SwippCore.Lib.FirstByKey

/-!
# The winner of a height and the order of delivery

There is one entry for a height at most. It is the best of the messages that
were let through, and of the messages with one hash only the first is let
through. So the order decides where messages of one hash differ, and where the
highest score is reached more than once.
-/

set_option autoImplicit false

namespace SwippCore.PayeeOrder
open MasternodePayments FinMap BlockHashCache FirstByKey Leader ChainRuns

abbrev Winner := CMasternodePaymentWinner

variable (node : Node)

def eligible (m : Winner) : Bool :=
  node.chain.pindexBest.isSome && inRange node m && decide (m.vin.nSequence = uintMax) &&
    MasternodePayments.checkSignature node m

def entry (ws : List Winner) (nBlockHeight : ℤ) : Option Winner :=
  ws.find? (fun w => w.nBlockHeight == nBlockHeight)

/-- What `CheckBlock` asks for at a height. -/
def demanded (st : State) (nBlockHeight : ℤ) : Option (CScript × CTxIn) :=
  (entry st.vWinning nBlockHeight).map (fun w => (w.payee,w.vin))

def OnePerHeight (st : State) : Prop :=
  (st.vWinning.map CMasternodePaymentWinner.nBlockHeight).Nodup

def fresh (cache : Cache) : State := ⟨∅,[],cache⟩

section Beat
variable (w : Winner)

variable (ws : List Winner)

theorem beat_heights : (beat w ws).1.map CMasternodePaymentWinner.nBlockHeight =
    ws.map CMasternodePaymentWinner.nBlockHeight := by
  induction ws with
  | nil => rfl
  | cons x xs ih =>
    rw [beat]
    split_ifs <;> simp [ih]

theorem entry_none (h : ℤ) :
    entry ws h = none ↔ h ∉ ws.map CMasternodePaymentWinner.nBlockHeight := by
  simp [entry, List.find?_eq_none]

theorem entry_cons (x : Winner) (xs : List Winner) (h : ℤ) :
    entry (x::xs) h = if x.nBlockHeight = h then some x else entry xs h := by
  rw [entry, List.find?_cons]
  by_cases hx : x.nBlockHeight = h
  · simp [hx]
  · have hb : (x.nBlockHeight == h) = false := by simpa using hx
    rw [hb, if_neg hx]
    rfl

theorem entry_append (x : Winner) (h : ℤ) :
    entry (ws++[x]) h = (entry ws h).or (if x.nBlockHeight = h then some x else none) := by
  rw [entry, List.find?_append]
  by_cases hx : x.nBlockHeight = h <;> simp [hx, entry]

theorem beat_absent {ws : List Winner} (h : entry ws w.nBlockHeight = none) :
    beat w ws = (ws,false,false) := by
  induction ws with
  | nil => rfl
  | cons x xs ih =>
    rw [entry_cons] at h
    split_ifs at h with hx
    rw [beat, if_neg hx, ih h]

theorem beat_present {ws : List Winner} {a : Winner} (h : entry ws w.nBlockHeight = some a)
    (hn : (ws.map CMasternodePaymentWinner.nBlockHeight).Nodup) :
    (beat w ws).2 = (true,decide (a.score < w.score)) ∧
      ∀ k, entry (beat w ws).1 k =
        if k = w.nBlockHeight then some (lead CMasternodePaymentWinner.score (some a) w)
        else entry ws k := by
  induction ws with
  | nil => cases h
  | cons x xs ih =>
    rw [List.map_cons, List.nodup_cons] at hn
    rw [entry_cons] at h
    split_ifs at h with hx
    · cases h
      rw [beat, if_pos hx]
      by_cases hs : a.score < w.score
      · rw [if_pos hs]
        refine ⟨by simp [hs],fun k => ?_⟩
        have hw : ({ a with
            score := w.score
            vin := w.vin
            payee := w.payee
            vchSig := w.vchSig } : Winner) = w := by
          cases w
          cases a
          simp_all
        rw [hw, entry_cons, lead, if_pos hs, entry_cons, hx]
        by_cases hk : k = w.nBlockHeight
        · rw [if_pos hk.symm, if_pos hk]
        · rw [if_neg (Ne.symm hk), if_neg hk, if_neg (Ne.symm hk)]
      · have habs : entry xs w.nBlockHeight = none := by
          rw [entry_none, ← hx]
          exact hn.1
        rw [if_neg hs, beat_absent w habs]
        refine ⟨by simp [hs],fun k => ?_⟩
        dsimp only
        rw [entry_cons, lead, if_neg hs, hx]
        by_cases hk : k = w.nBlockHeight
        · rw [if_pos hk.symm, if_pos hk]
        · rw [if_neg (Ne.symm hk), if_neg hk]
    · obtain ⟨hr,hent⟩ := ih h hn.2
      rw [beat, if_neg hx]
      refine ⟨hr,fun k => ?_⟩
      dsimp only
      rw [entry_cons, hent k, entry_cons]
      by_cases hk : k = w.nBlockHeight
      · rw [if_pos hk, if_neg (fun he => hx (he.trans hk)), if_pos hk]
      · rw [if_neg hk, if_neg hk]

end Beat

section Run
variable (cache : Cache)

def answer (nBlockHeight : ℤ) : Option Uint256 :=
  (getBlockHash node.chain (nBlockHeight-576) cache).1

def scored (m : Winner) : Winner :=
  { m with score := ((answer node cache m.nBlockHeight).map
      (fun hash => calculateScore node hash m.vin)).getD 0 }

def storable (nBlockHeight : ℤ) (m : Winner) : Bool :=
  decide (m.nBlockHeight = nBlockHeight) && (answer node cache m.nBlockHeight).isSome

structure Sound (st : State) : Prop where
  nodup : OnePerHeight st
  answers : ∀ h, (getBlockHash node.chain h st.mapCacheBlockHashes).1 =
    (getBlockHash node.chain h cache).1

theorem fresh_sound : Sound node cache (fresh cache) := ⟨List.nodup_nil,fun _ => rfl⟩

def passes (m : Winner) (st : State) : Prop :=
  eligible node m = true ∧ m.getHash node ∉ st.mapSeenMasternodeVotes

theorem blocked (m : Winner) (st : State) (h : ¬ passes node m st) :
    (processMnw node m st).1 = st := by
  unfold processMnw
  dsimp only
  split_ifs with hbest hseen hrange hseq hsig
  · rfl
  · rfl
  · rfl
  · rfl
  · rfl
  · refine absurd ⟨?_,hseen⟩ h
    simp only [eligible, Bool.and_eq_true, decide_eq_true_eq]
    refine ⟨⟨⟨?_,?_⟩,?_⟩,?_⟩
    · simpa [Option.isNone_iff_eq_none, Option.isSome_iff_ne_none] using hbest
    · simpa using hrange
    · exact not_not.mp hseq
    · simpa using hsig

theorem passed (m : Winner) (st : State) (h : passes node m st) :
    (processMnw node m st).1 = (addWinningMasternode node m { st with
      mapSeenMasternodeVotes := insertNew st.mapSeenMasternodeVotes (m.getHash node) m }).1 := by
  obtain ⟨he,hseen⟩ := h
  simp only [eligible, Bool.and_eq_true, decide_eq_true_eq] at he
  obtain ⟨⟨⟨hbest,hrange⟩,hseq⟩,hsig⟩ := he
  have hb : node.chain.pindexBest.isNone = false := by
    simpa [Option.isNone_iff_eq_none, Option.isSome_iff_ne_none] using hbest
  simp only [processMnw, hb, hrange, hsig, Bool.not_true, Bool.false_eq_true, if_false]
  rw [if_neg hseen, if_neg (not_not.mpr hseq)]
  split <;> next heq => rw [heq]

theorem mem_insert_new (seen : Dict Uint256 Winner) (k j : Uint256) (m : Winner) :
    j ∈ insertNew seen k m ↔ j = k ∨ j ∈ seen := by
  unfold insertNew
  split_ifs with hk
  · exact ⟨Or.inr,fun h => h.elim (fun he => he ▸ hk) id⟩
  · exact AList.mem_insert _

theorem add_spec (m : Winner) {st : State} (hs : Sound node cache st) :
    let st' := (addWinningMasternode node m st).1
    Sound node cache st' ∧
      (∀ k, k ∈ st'.mapSeenMasternodeVotes → k ∈ st.mapSeenMasternodeVotes ∨ k = m.getHash node) ∧
      (∀ k, k ∈ st.mapSeenMasternodeVotes → k ∈ st'.mapSeenMasternodeVotes) ∧
      ∀ h, entry st'.vWinning h =
        if storable node cache h m then
          some (lead CMasternodePaymentWinner.score (entry st.vWinning h) (scored node cache m))
        else entry st.vWinning h := by
  have hans : (getBlockHash node.chain (m.nBlockHeight-576) st.mapCacheBlockHashes).1 =
      answer node cache m.nBlockHeight := hs.answers _
  have hcache : ∀ h, (getBlockHash node.chain h
      (getBlockHash node.chain (m.nBlockHeight-576) st.mapCacheBlockHashes).2).1 =
      (getBlockHash node.chain h cache).1 := by
    intro h
    rw [get_block_hash_stable, hs.answers]
  unfold addWinningMasternode
  simp only [hans]
  cases ha : answer node cache m.nBlockHeight with
  | none =>
    refine ⟨⟨hs.nodup,hcache⟩,fun k hk => Or.inl hk,fun k hk => hk,fun h => ?_⟩
    simp [storable, ha]
  | some hash =>
    have hscored : { m with score := calculateScore node hash m.vin } = scored node cache m := by
      simp [scored, ha]
    simp only [hscored]
    have hh : (scored node cache m).nBlockHeight = m.nBlockHeight := rfl
    have hstore : ∀ h, storable node cache h m = decide (m.nBlockHeight = h) := by
      intro h
      simp [storable, ha]
    cases he : entry st.vWinning m.nBlockHeight with
    | none =>
      rw [beat_absent (scored node cache m) he]
      refine ⟨⟨?_,hcache⟩,fun k hk => ?_,fun k hk => (mem_insert_new _ _ _ _).mpr (Or.inr hk),
        fun h => ?_⟩
      · change ((st.vWinning++[scored node cache m]).map _).Nodup
        rw [List.map_append, List.nodup_append]
        refine ⟨hs.nodup,by simp,?_⟩
        intro a ha' b hb hab
        rw [List.map_singleton, List.mem_singleton] at hb
        rw [hab, hb] at ha'
        exact (entry_none _ _).mp he ha'
      · exact ((mem_insert_new _ _ _ _).mp hk).symm
      · dsimp only
        rw [entry_append, hstore, hh]
        by_cases hk : m.nBlockHeight = h
        · subst hk
          simp [he, lead]
        · simp [hk]
    | some a =>
      obtain ⟨hr,hent⟩ := beat_present (scored node cache m) he hs.nodup
      have hheights := beat_heights (scored node cache m) st.vWinning
      rcases hb : beat (scored node cache m) st.vWinning with ⟨ws,b1,b2⟩
      rw [hb] at hr hent hheights
      obtain ⟨rfl,hb2⟩ := Prod.mk.inj hr
      have hlead : ∀ h, entry ws h =
          if storable node cache h m then
            some (lead CMasternodePaymentWinner.score (entry st.vWinning h) (scored node cache m))
          else entry st.vWinning h := by
        intro h
        rw [hent h, hstore, hh]
        by_cases hk : h = m.nBlockHeight
        · rw [hk, he]
          simp
        · simp [hk, Ne.symm hk]
      cases b2 with
      | true =>
        refine ⟨⟨?_,hcache⟩,fun k hk => Or.inl hk,fun k hk => hk,hlead⟩
        change (ws.map _).Nodup
        rw [hheights]
        exact hs.nodup
      | false =>
        refine ⟨⟨hs.nodup,hcache⟩,fun k hk => Or.inl hk,fun k hk => hk,fun h => ?_⟩
        -- an entry that is not beaten is its own successor
        have hnot : ¬ a.score < (scored node cache m).score := by simpa using hb2.symm
        rw [hstore]
        by_cases hk : m.nBlockHeight = h
        · subst hk
          simp [he, lead, hnot]
        · simp [hk]

def taken (seen : Uint256 → Bool) (ms : List Winner) : List Winner :=
  firsts (CMasternodePaymentWinner.getHash node) seen (ms.filter (eligible node))

def known (st : State) (k : Uint256) : Bool := decide (k ∈ st.mapSeenMasternodeVotes)

def scoreOf (m : Winner) : ℕ := (scored node cache m).score

variable (ms : List Winner)

theorem receive_entry (st : State) (hs : Sound node cache st) :
    OnePerHeight (receive node ms st) ∧ ∀ h, entry (receive node ms st).vWinning h =
      leader CMasternodePaymentWinner.score (entry st.vWinning h)
        (((taken node (known st) ms).filter (storable node cache h)).map (scored node cache)) := by
  induction ms generalizing st with
  | nil => exact ⟨hs.nodup,fun _ => rfl⟩
  | cons m ms ih =>
    change OnePerHeight (receive node ms (processMnw node m st).1) ∧
      ∀ h, entry (receive node ms (processMnw node m st).1).vWinning h = _
    by_cases hp : passes node m st
    · rw [passed node m st hp]
      have hs1 : Sound node cache { st with
          mapSeenMasternodeVotes := insertNew st.mapSeenMasternodeVotes (m.getHash node) m } :=
        ⟨hs.nodup,hs.answers⟩
      obtain ⟨hs2,hsub,hsup,hent⟩ := add_spec node cache m hs1
      obtain ⟨hone,hrun⟩ := ih _ hs2
      refine ⟨hone,fun h => ?_⟩
      -- the hash of the message is what has become known
      have hknown : known (addWinningMasternode node m { st with
          mapSeenMasternodeVotes := insertNew st.mapSeenMasternodeVotes (m.getHash node) m }).1 =
          fun k => k == m.getHash node || known st k := by
        funext k
        rw [Bool.eq_iff_iff]
        simp only [known, decide_eq_true_eq, Bool.or_eq_true, beq_iff_eq]
        rw [← mem_insert_new st.mapSeenMasternodeVotes (m.getHash node) k m]
        refine ⟨fun hk => (hsub k hk).elim id (fun he => ?_),hsup k⟩
        exact (mem_insert_new _ _ _ _).mpr (Or.inl he)
      have hnew : known st (m.getHash node) = false := by simpa [known] using hp.2
      rw [hrun h, hent h, hknown, taken, taken, List.filter_cons_of_pos hp.1, firsts, hnew]
      simp only [Bool.false_eq_true, if_false]
      by_cases hst : storable node cache h m = true
      · rw [if_pos hst, List.filter_cons_of_pos hst, List.map_cons, leader]
      · rw [if_neg hst, List.filter_cons_of_neg hst]
    · rw [blocked node m st hp]
      obtain ⟨hone,hrun⟩ := ih st hs
      refine ⟨hone,fun h => ?_⟩
      rw [hrun h, taken, taken]
      by_cases he : eligible node m = true
      · have hseen : known st (m.getHash node) = true := by
          by_contra hn
          exact hp ⟨he,by simpa [known] using hn⟩
        rw [List.filter_cons_of_pos he, firsts, if_pos hseen]
      · rw [List.filter_cons_of_neg he]

theorem entry_fresh (h : ℤ) :
    entry (receive node ms (fresh cache)).vWinning h =
      (leader (scoreOf node cache) none
        ((taken node (fun _ => false) ms).filter (storable node cache h))).map
        (scored node cache) := by
  have hk : known (fresh cache) = fun _ => false := by
    funext k
    exact decide_eq_false (AList.notMem_empty k)
  rw [(receive_entry node cache ms _ (fresh_sound node cache)).2 h, hk]
  exact leader_map CMasternodePaymentWinner.score (scored node cache) none _

def Best (ms : List Winner) (m : Winner) : Prop :=
  (m ∈ ms ∧ eligible node m = true ∧ storable node cache m.nBlockHeight m = true) ∧
    ∀ m' ∈ ms, eligible node m' = true → storable node cache m.nBlockHeight m' = true →
      scoreOf node cache m' ≤ scoreOf node cache m

def Contends (m m' : Winner) : Prop :=
  m'.getHash node = m.getHash node ∨
    storable node cache m.nBlockHeight m' = true ∧ scoreOf node cache m' = scoreOf node cache m

def Undisputed (ms : List Winner) : Prop :=
  ∀ m m', Best node cache ms m → m' ∈ ms → eligible node m' = true → Contends node cache m m' →
    m'.nBlockHeight = m.nBlockHeight ∧ m'.vin = m.vin ∧ m'.payee = m.payee

def SameDemands (st st' : State) : Prop := ∀ h, demanded st h = demanded st' h

def OrderFree (ms : List Winner) : Prop :=
  (∀ ms', ms'.Perm ms → OnePerHeight (receive node ms' (fresh cache))) ∧
    ∀ ms₁ ms₂, ms₁.Perm ms → ms₂.Perm ms →
      SameDemands (receive node ms₁ (fresh cache)) (receive node ms₂ (fresh cache))

theorem demanded_fresh (h : ℤ) :
    demanded (receive node ms (fresh cache)) h =
      (leader (scoreOf node cache) none
        ((taken node (fun _ => false) ms).filter (storable node cache h))).map
        (fun m => (m.payee,m.vin)) := by
  rw [demanded, entry_fresh, Option.map_map]
  rfl

theorem storable_iff (h : ℤ) (m : Winner) : storable node cache h m = true ↔
    m.nBlockHeight = h ∧ storable node cache m.nBlockHeight m = true := by
  simp [storable]

theorem taken_mem {seen : Uint256 → Bool} {ms : List Winner} {m : Winner}
    (h : m ∈ taken node seen ms) : m ∈ ms ∧ eligible node m = true :=
  List.mem_filter.mp (firsts_subset h)

section Sufficient
variable (ms : List Winner)

theorem best_exists {a : Winner} (ha : a ∈ ms) (he : eligible node a = true)
    (hst : storable node cache a.nBlockHeight a = true) :
    ∃ m, Best node cache ms m ∧ m.nBlockHeight = a.nBlockHeight := by
  have hmem : a ∈ (ms.filter (eligible node)).filter (storable node cache a.nBlockHeight) :=
    List.mem_filter.mpr ⟨List.mem_filter.mpr ⟨ha,he⟩,hst⟩
  cases hl : leader (scoreOf node cache) none ((ms.filter (eligible node)).filter
      (storable node cache a.nBlockHeight)) with
  | none =>
    rw [leader_none _ hl] at hmem
    cases hmem
  | some m =>
    obtain ⟨hme,hmst⟩ := List.mem_filter.mp
      ((leader_mem _ _ hl).resolve_left (fun h => nomatch h))
    obtain ⟨hmms,hmel⟩ := List.mem_filter.mp hme
    obtain ⟨hmh,hmself⟩ := (storable_iff node cache _ m).mp hmst
    refine ⟨m,⟨⟨hmms,hmel,hmself⟩,fun x hx hxe hxs => ?_⟩,hmh⟩
    rw [hmh] at hxs
    exact (leader_max _ _ hl).1 x
      (List.mem_filter.mpr ⟨List.mem_filter.mpr ⟨hx,hxe⟩,hxs⟩)

variable (hu : Undisputed node cache ms)
include hu

theorem undisputed_demanded {m : Winner} (hm : Best node cache ms m) {ms' : List Winner}
    (hp : ms'.Perm ms) : demanded (receive node ms' (fresh cache)) m.nBlockHeight =
      some (m.payee,m.vin) := by
  have hel : m ∈ ms'.filter (eligible node) :=
    List.mem_filter.mpr ⟨hp.mem_iff.mpr hm.1.1,hm.1.2.1⟩
  have hcov : ∃ y ∈ taken node (fun _ => false) ms', y.getHash node = m.getHash node :=
    firsts_covers hel rfl
  obtain ⟨y,hy,hkey⟩ := hcov
  obtain ⟨hyms,hyel⟩ := taken_mem node hy
  obtain ⟨hyh,hyv,-⟩ := hu m y hm (hp.mem_iff.mp hyms) hyel (Or.inl hkey)
  -- the one that was let through in its place is as good
  have hsc : scoreOf node cache y = scoreOf node cache m := by
    simp only [scoreOf, scored, hyh, hyv]
  have hyst : storable node cache m.nBlockHeight y = true := by
    have := hm.1.2.2
    simp only [storable, Bool.and_eq_true, decide_eq_true_eq] at this ⊢
    exact ⟨hyh,by rw [hyh]; exact this.2⟩
  rw [demanded_fresh]
  have hmem : y ∈ (taken node (fun _ => false) ms').filter
      (storable node cache m.nBlockHeight) := List.mem_filter.mpr ⟨hy,hyst⟩
  cases hl : leader (scoreOf node cache) none ((taken node (fun _ => false) ms').filter
      (storable node cache m.nBlockHeight)) with
  | none =>
    rw [leader_none _ hl] at hmem
    cases hmem
  | some x =>
    have hxmem := (leader_mem _ _ hl).resolve_left (fun h => nomatch h)
    obtain ⟨hxt,hxst⟩ := List.mem_filter.mp hxmem
    obtain ⟨hxms,hxel⟩ := taken_mem node hxt
    have hge := (leader_max _ _ hl).1 y hmem
    have hle := hm.2 x (hp.mem_iff.mp hxms) hxel hxst
    obtain ⟨-,hv,hpay⟩ := hu m x hm (hp.mem_iff.mp hxms) hxel (Or.inr ⟨hxst,by omega⟩)
    rw [Option.map_some, hv, hpay]

theorem undisputed_agree {ms₁ ms₂ : List Winner} (h₁ : ms₁.Perm ms) (h₂ : ms₂.Perm ms) :
    SameDemands (receive node ms₁ (fresh cache)) (receive node ms₂ (fresh cache)) := by
  intro h
  by_cases hex : ∃ a ∈ ms, eligible node a = true ∧ storable node cache h a = true
  · obtain ⟨a,ha,he,hst⟩ := hex
    obtain ⟨rfl,hself⟩ := (storable_iff node cache h a).mp hst
    obtain ⟨m,hm,hmh⟩ := best_exists node cache ms ha he hself
    rw [← hmh, undisputed_demanded node cache ms hu hm h₁,
      undisputed_demanded node cache ms hu hm h₂]
  · have hnone : ∀ ms', ms'.Perm ms → demanded (receive node ms' (fresh cache)) h = none := by
      intro ms' hp
      have hempty : (taken node (fun _ => false) ms').filter (storable node cache h) = [] := by
        refine List.filter_eq_nil_iff.mpr (fun x hx hst => hex ?_)
        obtain ⟨hxm,hxe⟩ := taken_mem node hx
        exact ⟨x,hp.mem_iff.mp hxm,hxe,hst⟩
      rw [demanded_fresh, hempty]
      rfl
    rw [hnone ms₁ h₁, hnone ms₂ h₂]

end Sufficient

section Necessary
variable (ms : List Winner)

theorem cons_taken {m : Winner} (he : eligible node m = true) (rest : List Winner) :
    taken node (fun _ => false) (m::rest) =
      m::taken node (fun k => k == m.getHash node || false) rest := by
  rw [taken, List.filter_cons_of_pos he, firsts, if_neg (by simp)]
  rfl

theorem first_demanded {h : ℤ} {m : Winner} (rest : List Winner) (he : eligible node m = true)
    (hst : storable node cache h m = true)
    (hmax : ∀ x ∈ rest, eligible node x = true → storable node cache h x = true →
      scoreOf node cache x ≤ scoreOf node cache m) :
    demanded (receive node (m::rest) (fresh cache)) h = some (m.payee,m.vin) := by
  rw [demanded_fresh, cons_taken node he, List.filter_cons_of_pos hst, leader, lead,
    leader_first _ (fun x hx => ?_)]
  · rfl
  · obtain ⟨hxt,hxs⟩ := List.mem_filter.mp hx
    obtain ⟨hxm,hxe⟩ := taken_mem node hxt
    exact hmax x hxm hxe hxs

theorem kept_out {m x : Winner} {rest : List Winner} (he : eligible node m = true)
    (hx : x ∈ taken node (fun _ => false) (m::rest)) (hk : x.getHash node = m.getHash node) :
    x = m := by
  rw [cons_taken node he] at hx
  rcases List.mem_cons.mp hx with h | h
  · exact h
  · exfalso
    revert h
    generalize hseen : (fun k => k == m.getHash node || false) = seen
    have hm : seen (m.getHash node) = true := by simp [← hseen]
    clear hseen hx
    unfold taken
    induction rest.filter (eligible node) generalizing seen with
    | nil => exact fun h => nomatch h
    | cons y ys ih =>
      intro h
      rw [firsts] at h
      split_ifs at h with hy
      · exact ih seen hm h
      · rcases List.mem_cons.mp h with rfl | h
        · rw [hk] at hy
          exact hy hm
        · exact ih _ (by simp [hm]) h

theorem agree_undisputed (h : ∀ ms₁ ms₂, ms₁.Perm ms → ms₂.Perm ms →
    SameDemands (receive node ms₁ (fresh cache)) (receive node ms₂ (fresh cache))) :
    Undisputed node cache ms := by
  intro m m' hm hm'ms hm'el hcon
  have p := (List.perm_cons_erase hm.1.1).symm
  have p' := (List.perm_cons_erase hm'ms).symm
  have hfirst := first_demanded node cache (ms.erase m) hm.1.2.1 hm.1.2.2
    (fun x hx hxe hxs => hm.2 x (List.mem_of_mem_erase hx) hxe hxs)
  have hsame : demanded (receive node (m'::ms.erase m') (fresh cache)) m.nBlockHeight =
      some (m.payee,m.vin) := by
    rw [h _ _ p' p m.nBlockHeight, hfirst]
  rcases hcon with hkey | ⟨hst,hsc⟩
  · -- what stands has the input of `m`, so it has its hash, and only `m'` can have that
    rw [demanded_fresh] at hsame
    obtain ⟨x,hx,hxp⟩ := Option.map_eq_some_iff.mp hsame
    obtain ⟨hxpay,hxvin⟩ := Prod.mk.inj hxp
    obtain ⟨hxt,hxst⟩ := List.mem_filter.mp
      ((leader_mem _ _ hx).resolve_left (fun hn => nomatch hn))
    have hxh := ((storable_iff node cache _ x).mp hxst).1
    have hxkey : x.getHash node = m'.getHash node := by
      rw [hkey, CMasternodePaymentWinner.getHash, CMasternodePaymentWinner.getHash, hxvin, hxh]
    have hxm := kept_out node hm'el hxt hxkey
    rw [← hxm]
    exact ⟨hxh,hxvin,hxpay⟩
  · have hfirst' := first_demanded node cache (ms.erase m') hm'el hst
      (fun x hx hxe hxs => hsc ▸ hm.2 x (List.mem_of_mem_erase hx) hxe hxs)
    rw [hfirst'] at hsame
    obtain ⟨hpay,hvin⟩ := Prod.mk.inj (Option.some_inj.mp hsame)
    exact ⟨((storable_iff node cache _ m').mp hst).1,hvin,hpay⟩

end Necessary

/-- The order of delivery makes no difference exactly when, for every height, the messages
with the top score and those that share a hash with one of them say the same. -/
theorem payee_order_iff (ms : List Winner) :
    OrderFree node cache ms ↔ Undisputed node cache ms := by
  constructor
  · exact fun h => agree_undisputed node cache ms h.2
  · intro hu
    refine ⟨fun ms' _ => (receive_entry node cache ms' _ (fresh_sound node cache)).1,?_⟩
    exact fun ms₁ ms₂ h₁ h₂ => undisputed_agree node cache ms hu h₁ h₂

end Run

def sampleNode : Node where
  chain :=
    (play sampleEnv (addMined [mined 1 0 0,mined 2 1 5] (mined 2 1 5)) firstState).getD .empty
  hashHeight nBlockHeight := BitVec.ofInt 256 nBlockHeight
  hashOne h := h
  vinString _ := ""
  scriptString _ := ""
  verifyMessage _ _ _ := true

def sampleWinner (payee : CScript) : Winner := ⟨1,⟨⟨9,0⟩,[],uintMax⟩,payee,[],0⟩

/-- Of two signed messages about one input and height, the one that comes first stands. -/
theorem first_payee_stands : ¬ ∀ (node : Node) (cache : Cache) (ms : List Winner),
    (∀ m ∈ ms, MasternodePayments.checkSignature node m = true) → OrderFree node cache ms := by
  intro h
  have hfree := h sampleNode ∅ [sampleWinner [1],sampleWinner [2]] (fun _ _ => rfl)
  have hd := hfree.2 [sampleWinner [1],sampleWinner [2]] [sampleWinner [2],sampleWinner [1]]
    (List.Perm.refl _) (List.Perm.swap _ _ _) 1
  revert hd
  decide +kernel

end SwippCore.PayeeOrder
