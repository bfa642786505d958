import SwippCore.PrepareDenominate

/-!
# Sessions that leave coins locked

Where a coin of another denomination may be chosen, some order of the coins and some list of
denominations end in the error for outputs that do not come out, after the coins were locked.
-/

set_option autoImplicit false

namespace SwippCore.DenominateRefusals
open FinMap AvailableCoins CoinSelection Denominations DenominationRuns PaymentRuns PrepareDenominate
  DenominateOutputs PrepareDenominateRuns
open SelectCoins (total_nil total_cons total_append total_perm total_nonneg)
open DarkSendPool (OutShuffle darkSendDenominations getDenominations darksendPoolMax)

section Lead
variable (H : Holdings) (s : Session)

structure Lead (cs : List COutput) : Prop where
  among : cs.Subperm (H.offered none)
  first : ∀ c ∈ cs, wantedFirst (asked H s) (value c) = true ∧ inRounds (asked H s) H.builder.env c = true
  last : ∃ before z, cs = before++[z] ∧ wanted (asked H s) (value z) = true ∧
    ∀ c ∈ before, value c ≠ value z
  all : ∀ v, wanted (asked H s) v = true → ∃ c ∈ cs, value c = v
  fits : total cs ≤ darksendPoolMax

theorem choose_coins (P : COutput → Prop) (vs : List ℤ) (h : ∀ v ∈ vs, ∃ c, P c ∧ value c = v) :
    ∃ cs : List COutput, (∀ c ∈ cs, P c) ∧ cs.map value = vs := by
  induction vs with
  | nil => exact ⟨[],fun c hc => (by cases hc),rfl⟩
  | cons v vs ih =>
    obtain ⟨c,hc,rfl⟩ := h v List.mem_cons_self
    obtain ⟨cs,hcs,hvalues⟩ := ih fun u hu => h u (List.mem_cons_of_mem _ hu)
    refine ⟨c::cs,?_,by rw [List.map_cons, hvalues]⟩
    intro x hx
    rcases List.mem_cons.mp hx with rfl | hx
    · exact hc
    · exact hcs x hx

theorem filter_sum_le (vs : List ℤ) (p : ℤ → Bool) (h : ∀ v ∈ vs, 0 ≤ v) : (vs.filter p).sum ≤ vs.sum := by
  induction vs with
  | nil => exact le_refl _
  | cons v vs ih =>
    have hv := h v List.mem_cons_self
    have hvs := ih fun u hu => h u (List.mem_cons_of_mem _ hu)
    rw [List.filter_cons]
    split
    · rw [List.sum_cons, List.sum_cons]
      omega
    · rw [List.sum_cons]
      omega

theorem lead_of_extra (hsel : Selectable H s) (extra : List COutput) (hlength : extra.length ≤ 1)
    (hextra : ∀ c ∈ extra, c ∈ H.offered none ∧ wantedFirst (asked H s) (value c) = true ∧
      inRounds (asked H s) H.builder.env c = true ∧ wanted (asked H s) (value c) = false) :
    ∃ ones, Lead H s (extra++ones) ∧ ones.map value = darkSendDenominations.filter (wanted (asked H s)) := by
  obtain ⟨⟨v₀,hv₀⟩,hfirst,hthere⟩ := hsel
  obtain ⟨ones,hones,hvalues⟩ := choose_coins
    (fun c => c ∈ H.offered none ∧ wanted (asked H s) (value c) = true ∧
      inRounds (asked H s) H.builder.env c = true)
    (darkSendDenominations.filter (wanted (asked H s))) (by
      intro v hv
      have hw := (List.mem_filter.mp hv).2
      obtain ⟨c,hc,rfl,hrounds⟩ := hthere v hw
      exact ⟨c,⟨hc,hw,hrounds⟩,rfl⟩)
  have hnodup : (ones.map value).Nodup := by
    rw [hvalues]
    exact List.Nodup.filter _ (by decide)
  have hall : ∀ v, wanted (asked H s) v = true → v ∈ ones.map value := by
    intro v hv
    rw [hvalues]
    exact List.mem_filter.mpr ⟨wanted_denominated (asked H s) hv,hv⟩
  refine ⟨ones,⟨?_,?_,?_,?_,?_⟩,hvalues⟩
  · apply List.Nodup.subperm
    · rw [List.nodup_append]
      refine ⟨?_,List.Nodup.of_map _ hnodup,?_⟩
      · cases extra with
        | nil => exact List.nodup_nil
        | cons c cs =>
          cases cs with
          | nil => exact List.nodup_singleton c
          | cons d ds =>
            rw [List.length_cons, List.length_cons] at hlength
            omega
      · rintro c hc d hd rfl
        have hbad := (hextra c hc).2.2.2
        rw [(hones c hd).2.1] at hbad
        cases hbad
    · intro c hc
      rcases List.mem_append.mp hc with hc | hc
      · exact (hextra c hc).1
      · exact (hones c hc).1
  · intro c hc
    rcases List.mem_append.mp hc with hc | hc
    · exact ⟨(hextra c hc).2.1,(hextra c hc).2.2.1⟩
    · exact ⟨hfirst _ (hones c hc).2.1,(hones c hc).2.2⟩
  · rcases List.eq_nil_or_concat' ones with rfl | ⟨before,z,rfl⟩
    · cases hall v₀ hv₀
    · have hz := (hones z (List.mem_append_right _ List.mem_cons_self)).2.1
      refine ⟨extra++before,z,(List.append_assoc _ _ _).symm,hz,?_⟩
      intro c hc
      rcases List.mem_append.mp hc with hc | hc
      · intro heq
        have hbad := (hextra c hc).2.2.2
        rw [heq, hz] at hbad
        cases hbad
      · intro heq
        rw [List.map_append, List.nodup_append] at hnodup
        exact hnodup.2.2 (value c) (List.mem_map.mpr ⟨c,hc,rfl⟩) (value z) List.mem_cons_self heq
  · intro v hv
    obtain ⟨c,hc,heq⟩ := List.mem_map.mp (hall v hv)
    exact ⟨c,List.mem_append_right _ hc,heq⟩
  · have hones : total ones ≤ 200000*coin := by
      have hle := filter_sum_le darkSendDenominations (wanted (asked H s)) (by decide)
      have hall : darkSendDenominations.sum ≤ 200000*coin := by decide
      unfold total
      rw [hvalues]
      exact le_trans hle hall
    have hone : total extra ≤ 200000*coin := by
      have hlarge : ∀ v ∈ darkSendDenominations, v ≤ 200000*coin := by decide
      cases extra with
      | nil => decide
      | cons c cs =>
        have hc := hlarge _ (first_denominated (asked H s) (hextra c List.mem_cons_self).2.1)
        cases cs with
        | nil =>
          rw [total_cons, total_nil, add_zero]
          exact hc
        | cons d ds =>
          rw [List.length_cons, List.length_cons] at hlength
          omega
    have hmax : 200000*coin+200000*coin ≤ darksendPoolMax := by decide
    rw [total_append]
    omega

theorem lead_chosen {cs rest : List COutput} (hlead : Lead H s cs) {ch : Chance}
    (hrand : ch.rand = fun _ => (0,0)) (horder : ch.coins.order (H.offered none) = cs++rest) :
    (chosen H s ch).1 = true ∧ (chosen H s ch).2.setCoinsRet = cs := by
  obtain ⟨before,z,rfl,hz,hbefore⟩ := hlead.last
  have hfit : ∀ c ∈ before++[z], Fitting H s c := fun c hc => ⟨Or.inr (hlead.first c hc).1,(hlead.first c hc).2⟩
  have hless : total before ≤ darksendPoolMax := by
    have hle := hlead.fits
    have hpos := fitting_pos H s z (hfit z (List.mem_append_right _ List.mem_cons_self))
    rw [total_append, total_cons, total_nil] at hle
    omega
  have hn : (ch.coins.order (H.offered none)).length = (before++([z]++rest)).length := by
    rw [horder, List.append_assoc]
  obtain ⟨d₁,h₁,hmax₁,hset₁,htake₁⟩ := first_steps (request H s ch) H.builder.V H.builder.env (Fitting H s)
    darksendPoolMax hz (before++([z]++rest)).length before ([z]++rest) [] ⟨off (request H s ch),0,darksendPoolMax,[]⟩
    (inv_start (request H s ch) (Fitting H s) darksendPoolMax (by decide)) rfl
    (fun c hc => ⟨(hlead.first c (List.mem_append_left _ hc)).1,(hlead.first c (List.mem_append_left _ hc)).2,
      hfit c (List.mem_append_left _ hc),hbefore c hc⟩)
    (fitting_pos H s) (fun c hc => by cases hc) hless
  rw [List.nil_append] at hset₁
  have hmissing : allFound d₁ = false := by
    apply eq_false_of_ne_true
    intro hall
    obtain ⟨x,hx,heq⟩ := (all_found_iff (request H s ch) (Fitting H s) darksendPoolMax h₁).mp hall (value z) hz
    rw [hset₁] at hx
    exact hbefore x hx heq
  have hzfirst := hlead.first z (List.mem_append_right _ List.mem_cons_self)
  obtain ⟨d₂,h₂,_,hset₂,htake₂⟩ := first_step (request H s ch) H.builder.V H.builder.env (Fitting H s)
    darksendPoolMax (before++([z]++rest)).length rest _ h₁ hmax₁ hmissing hzfirst.1 hzfirst.2
    (hfit z (List.mem_append_right _ List.mem_cons_self)) (by rw [hset₁]; exact hlead.fits)
  rw [hset₁] at hset₂
  have hdone : done (request H s ch) d₂ := by
    rw [done_iff (request H s ch) (Fitting H s) darksendPoolMax h₂, hset₂]
    refine ⟨hlead.all,?_⟩
    have hsmall : ∀ v ∈ darkSendDenominations, coin/10 ≤ v := by decide
    have hv := hsmall _ (first_denominated (asked H s) hzfirst.1)
    have hle := SelectCoins.value_le_total
      (fun c hc => le_of_lt (fitting_pos H s c (hfit c hc))) (List.mem_append_right _ List.mem_cons_self)
    change coin/10 ≤ _
    omega
  have hend : (chosen H s ch).2 = d₂ := by
    unfold chosen selectByDenominations
    dsimp only
    rw [hn, horder, List.append_assoc, htake₁]
    change (takeDenominations _ _ _ _ (z::rest) d₁).2 = d₂
    rw [htake₂]
    apply stays_done (request H s ch) H.builder.V H.builder.env hrand _ _ hdone
    rw [hset₂]
    exact List.append_ne_nil_of_right_ne_nil _ (List.cons_ne_nil _ _)
  rw [hend]
  refine ⟨?_,hset₂⟩
  have hin : ∀ c ∈ ch.coins.order (H.offered none), c ∈ H.offered none :=
    fun c hc => (ch.coins.perm _).subset hc
  obtain ⟨_,hiff⟩ := select_inv (request H s ch) H.builder.V H.builder.env darksendPoolMax
     (by decide) (admits_fitting H s ch (H.offered none)) hin
  apply hiff.mpr
  change done (request H s ch) (chosen H s ch).2
  rw [hend]
  exact hdone

end Lead

section Chances
variable (H : Holdings) (s : Session)

def orderedCoins (vCoins outs : List COutput) (hperm : vCoins.Perm outs) : Shuffle COutput where
  order xs := if xs = vCoins then outs else xs
  perm xs := by
    split
    · rename_i heq
      rw [heq]
      exact hperm.symm
    · exact List.Perm.refl xs

def still (α : Type) : Shuffle α := ⟨id,fun xs => List.Perm.refl xs⟩

def lastly (v : ℤ) : Shuffle ℤ where
  order xs := xs.filter (fun u => !decide (u = v))++xs.filter fun u => decide (u = v)
  perm xs := List.perm_append_comm.trans (List.filter_append_perm (fun u => decide (u = v)) xs)

def chanceOf (vCoins outs : List COutput) (hperm : vCoins.Perm outs) (v : ℤ) : Chance where
  coins := orderedCoins vCoins outs hperm
  rand _ := (0,0)
  first := still ℤ
  second := lastly v
  out := ⟨id,fun xs => List.Perm.refl xs⟩
  keys _ := some []

theorem denoms_replicate {vCoins outs : List COutput} (hperm : vCoins.Perm outs) {v : ℤ}
    (hv : v ∈ darkSendDenominations) : ∃ k vs, 41 ≤ k ∧
      (vDenoms (chanceOf vCoins outs hperm v)).reverse = List.replicate k v++vs := by
  have hfilter : ∀ xs : List ℤ, (xs.filter fun u => decide (u = v)).reverse = List.replicate (xs.count v) v := by
    intro xs
    rw [List.filter_eq, List.reverse_replicate]
  have hmany : 41 ≤ (((darkSendDenominations.flatMap fun d => [d,d])++
      (List.replicate 501 darkSendDenominations).flatten).drop (darkSendDenominations.length+1)).count v := by
    have hcount : ∀ u ∈ darkSendDenominations, darkSendDenominations.count u = 1 := by decide
    have hsplit : ∀ xs : List ℤ, xs.count v ≤ (xs.drop (darkSendDenominations.length+1)).count v+8 := by
      intro xs
      have htake := List.count_le_length (a := v) (l := xs.take (darkSendDenominations.length+1))
      have hlength : (xs.take (darkSendDenominations.length+1)).length ≤ 8 := List.length_take_le _ _
      have hparts : xs.count v = (xs.take (darkSendDenominations.length+1)).count v+
          (xs.drop (darkSendDenominations.length+1)).count v := by
        rw [← List.count_append, List.take_append_drop]
      omega
    have hlong : 501 ≤ ((darkSendDenominations.flatMap fun d => [d,d])++
        (List.replicate 501 darkSendDenominations).flatten).count v := by
      rw [List.count_append, List.count_flatten, List.map_replicate, hcount v hv, List.sum_replicate]
      exact Nat.le_add_left _ _
    have h := hsplit ((darkSendDenominations.flatMap fun d => [d,d])++
      (List.replicate 501 darkSendDenominations).flatten)
    omega
  have hdenoms : vDenoms (chanceOf vCoins outs hperm v) =
      ((darkSendDenominations.flatMap fun d => [d,d])++
        (List.replicate 501 darkSendDenominations).flatten).take (darkSendDenominations.length+1)++
      (lastly v).order (((darkSendDenominations.flatMap fun d => [d,d])++
        (List.replicate 501 darkSendDenominations).flatten).drop (darkSendDenominations.length+1)) := rfl
  rw [hdenoms, List.reverse_append]
  unfold lastly
  dsimp only
  rw [List.reverse_append, hfilter, List.append_assoc]
  exact ⟨_,_,hmany,rfl⟩

theorem smallest_wanted (h : ∃ v, wanted (asked H s) v = true) :
    ∃ v, wanted (asked H s) v = true ∧ ∀ u, wanted (asked H s) u = true → v ≤ u := by
  obtain ⟨v₀,hv₀⟩ := h
  have hne : (darkSendDenominations.toFinset.filter fun v => wanted (asked H s) v = true).Nonempty :=
    ⟨v₀,Finset.mem_filter.mpr ⟨List.mem_toFinset.mpr (wanted_denominated (asked H s) hv₀),hv₀⟩⟩
  obtain ⟨v,hv,hmin⟩ := Finset.exists_min_image _ id hne
  refine ⟨v,(Finset.mem_filter.mp hv).2,?_⟩
  intro u hu
  exact hmin u (Finset.mem_filter.mpr ⟨List.mem_toFinset.mpr (wanted_denominated (asked H s) hu),hu⟩)

end Chances

section Refusal
variable (H : Holdings) (s : Session)

theorem mask_of_values {vOut : List CTxOut} (hmask : getDenominations vOut = s.sessionDenom)
    {v₀ : ℤ} (hv₀ : wanted (asked H s) v₀ = true) {v : ℤ} (hv : v ∈ darkSendDenominations) :
    wanted (asked H s) v = true ↔ ∃ out ∈ vOut, out.nValue = v := by
  have hall : ∀ out ∈ vOut, out.nValue ∈ darkSendDenominations := by
    intro out hout
    by_contra hnot
    obtain ⟨x,_,hset,_⟩ := (wanted_iff (asked H s) v₀).mp hv₀
    change s.sessionDenom.testBit x.1 = true at hset
    rw [← hmask, denominations_zero hout hnot] at hset
    exact Bool.false_ne_true ((Nat.zero_testBit x.1).symm.trans hset)
  obtain ⟨x,hx,rfl⟩ := denominated_any_bits v hv
  have hbit : s.sessionDenom.testBit x.1 = vOut.any fun out => out.nValue == x.2 := by
    rw [← hmask]
    exact denominations_bit hall hx
  constructor
  · intro hw
    obtain ⟨y,hy,hset,heq⟩ := (wanted_iff (asked H s) x.2).mp hw
    change s.sessionDenom.testBit y.1 = true at hset
    rw [← any_bits_unique x hx y hy heq, hbit] at hset
    obtain ⟨out,hout,heq⟩ := List.any_eq_true.mp hset
    exact ⟨out,hout,beq_iff_eq.mp heq⟩
  · rintro ⟨out,hout,heq⟩
    apply (wanted_iff (asked H s) x.2).mpr
    refine ⟨x,hx,?_,rfl⟩
    change s.sessionDenom.testBit x.1 = true
    rw [hbit]
    exact List.any_eq_true.mpr ⟨out,hout,beq_iff_eq.mpr heq⟩

/-- Where the mask has one denomination, another one that the first table takes is smaller. -/
theorem other_smaller {v u : ℤ} (honly : ∀ w, wanted (asked H s) w = true → w = v)
    (hv : wantedFirst (asked H s) v = true) (hu : wantedFirst (asked H s) u = true) (hne : u ≠ v) :
    u < v := by
  have htable : ∀ x ∈ missingBits, ∀ y ∈ missingBits, ∀ z ∈ anyBits, x.1 = y.1 → z.1 = x.1 → z.2 = y.2 →
      x.2 ≠ y.2 → x.2 < y.2 := by decide
  obtain ⟨x,hx,hxset,rfl⟩ := (wanted_first_iff (asked H s) u).mp hu
  obtain ⟨y,hy,hyset,rfl⟩ := (wanted_first_iff (asked H s) v).mp hv
  have hbit : ∀ x ∈ missingBits, (asked H s).nDenom.testBit x.1 = true →
      ∃ z ∈ anyBits, z.1 = x.1 ∧ z.2 = y.2 := by
    intro x hx hset
    obtain ⟨z,hz,heq⟩ := missing_bits_any x hx
    rw [← heq] at hset
    exact ⟨z,hz,heq,honly z.2 ((wanted_iff (asked H s) z.2).mpr ⟨z,hz,hset,rfl⟩)⟩
  obtain ⟨z,hz,hzx,hzy⟩ := hbit x hx hxset
  obtain ⟨z',hz',hzy',hzv⟩ := hbit y hy hyset
  have hzz : z = z' := any_bits_unique z hz z' hz' (hzy.trans hzv.symm)
  exact htable x hx y hy z hz (by rw [← hzx, hzz, hzy']) hzx hzy hne

theorem refused_unbalanced {cs : List COutput} (hne : cs ≠ []) (hin : ∀ c ∈ cs, c ∈ H.offered none)
    (strError : String) : ¬ Balanced H s ⟨strError,
      H.builder.V.setLockedCoins.toFinset ∪ (cs.map (prevout H.builder.env)).toFinset,none⟩ := by
  rintro (⟨vin,vout,nValueIn,hsubmitted,_⟩ | ⟨_,_,hlocks⟩)
  · cases hsubmitted
  · obtain ⟨c,hc⟩ := List.exists_mem_of_ne_nil cs hne
    have hlocked : prevout H.builder.env c ∈ H.builder.V.setLockedCoins.toFinset := by
      rw [← hlocks]
      exact Finset.mem_union_right _ (List.mem_toFinset.mpr (List.mem_map.mpr ⟨c,hc,rfl⟩))
    exact LockedCoins.offered_unlocked H.builder.V H.builder.K H.builder.env
      (holdings_keyed H) _ c (hin c hc) (List.mem_toFinset.mp hlocked)

theorem lead_ends (hlocked : s.fLocked = false) (hpending : ¬ Pending s) (hrounds : 0 ≤ s.minRounds)
    {cs rest : List COutput} (hlead : Lead H s cs) (hperm : (H.offered none).Perm (cs++rest)) (v : ℤ) :
    ∃ r, PrepareDenominate.prepareDarksendDenominate H s (chanceOf (H.offered none) (cs++rest) hperm v) = some r ∧
      Ending H s (chanceOf (H.offered none) (cs++rest) hperm v) cs
        (chosen H s (chanceOf (H.offered none) (cs++rest) hperm v)).2.nValueRet r := by
  have horder : (chanceOf (H.offered none) (cs++rest) hperm v).coins.order (H.offered none) = cs++rest :=
    if_pos rfl
  obtain ⟨hfound,hset⟩ := lead_chosen H s hlead rfl horder
  have hin : ∀ c ∈ cs, c ∈ H.offered none := fun c hc => hlead.among.subset hc
  have hpos : ∀ c ∈ cs, 0 < value c := fun c hc =>
    denominated_pos _ (first_denominated (asked H s) (hlead.first c hc).1)
  obtain ⟨r,hr⟩ := denominate_some H s (chanceOf (H.offered none) (cs++rest) hperm v)
    (fun n h => (by cases h)) cs (chosen H s (chanceOf (H.offered none) (cs++rest) hperm v)).2.nValueRet
  refine ⟨r,?_,denominate_cases H s _ hin hpos hr⟩
  unfold PrepareDenominate.prepareDarksendDenominate
  dsimp only
  unfold Pending at hpending
  rw [hlocked, if_neg Bool.false_ne_true, if_neg hpending, if_pos hrounds]
  change (if (chosen H s _).1 = true then denominate H s _ (chosen H s _).2.setCoinsRet _ else _) = _
  rw [if_pos hfound, hset]
  exact hr

theorem prepare_some {ch : Chance} (hkeys : ∀ n, ch.keys n ≠ none) :
    ∃ r, PrepareDenominate.prepareDarksendDenominate H s ch = some r := by
  unfold PrepareDenominate.prepareDarksendDenominate
  dsimp only
  split
  · exact ⟨_,rfl⟩
  · split
    · exact ⟨_,rfl⟩
    · split
      · split
        · exact denominate_some H s ch hkeys _ _
        · exact ⟨_,rfl⟩
      · exact denominate_some H s ch hkeys _ _

theorem mixed_refused {ch : Chance} {w : COutput} {ones : List COutput} {nValueIn : ℤ}
    (hw : wantedFirst (asked H s) (value w) = true) (hnot : wanted (asked H s) (value w) = false)
    (hones : ones.map value = darkSendDenominations.filter (wanted (asked H s)))
    (hfirst : ∀ u, wanted (asked H s) u = true → wantedFirst (asked H s) u = true)
    {v : ℤ} (hv : wanted (asked H s) v = true) (hleast : ∀ u, wanted (asked H s) u = true → v ≤ u)
    (hdenoms : ∃ k vs, 41 ≤ k ∧ (vDenoms ch).reverse = List.replicate k v++vs)
    (hin : ∀ c ∈ w::ones, c ∈ H.offered none) {r : Result} (h : Ending H s ch (w::ones) nValueIn r) :
    ¬ Balanced H s r := by
  have hdenominated : value w ∈ darkSendDenominations := first_denominated (asked H s) hw
  cases h with
  | refused vOut hvalues hmask => exact refused_unbalanced H s (List.cons_ne_nil _ _) hin _
  | mirrored vOut hvalues hmask locks =>
    exfalso
    have hmem : value w ∈ vOut.map CTxOut.nValue := by
      rw [hvalues]
      exact List.mem_cons_self
    have hwanted := (mask_of_values H s hmask hv hdenominated).mpr (List.mem_map.mp hmem)
    rw [hnot] at hwanted
    cases hwanted
  | tried vOut hmake hlength hmask locks =>
    exfalso
    obtain ⟨k,vs,hk,hdenoms⟩ := hdenoms
    have hsum := make_outputs_total s ch _ _ hmake
    rw [List.map_nil, List.sum_nil, zero_add, add_zero] at hsum
    dsimp only at hsum
    rw [hdenoms] at hmake
    rcases smallest_first s ch v hv hleast _ [] hmake (fun out hout => (by cases hout)) with hmany | hall
    · rw [List.length_nil] at hmany
      dsimp only at hmany
      omega
    · have honly : ∀ u, wanted (asked H s) u = true → u = v := by
        intro u hu
        obtain ⟨out,hout,rfl⟩ := (mask_of_values H s hmask hv (wanted_denominated (asked H s) hu)).mp hu
        exact hall out hout
      have hne : value w ≠ v := by
        rintro rfl
        rw [hnot] at hv
        cases hv
      have hless := other_smaller H s honly (hfirst v hv) hw hne
      have hpos := denominated_pos _ hdenominated
      have hdvd : v ∣ total ones := by
        apply List.dvd_sum
        intro u hu
        rw [hones] at hu
        rw [honly u (List.mem_filter.mp hu).2]
      have hdvdOut : v ∣ (vOut.map CTxOut.nValue).sum := by
        apply List.dvd_sum
        intro u hu
        obtain ⟨out,hout,rfl⟩ := List.mem_map.mp hu
        rw [hall out hout]
      rw [hsum, total_cons, Int.dvd_add_left hdvd] at hdvdOut
      exact absurd (Int.le_of_dvd hpos hdvdOut) (not_le.mpr hless)

theorem large_refused {ch : Chance} {cs : List COutput} {nValueIn : ℤ}
    (hlarge : ¬ (0 ≤ s.sessionDenom ∧ s.sessionDenom < 128)) (hne : cs ≠ []) (hin : ∀ c ∈ cs, c ∈ H.offered none)
    {r : Result} (h : Ending H s ch cs nValueIn r) : ¬ Balanced H s r := by
  cases h with
  | refused vOut hvalues hmask => exact refused_unbalanced H s hne hin _
  | mirrored vOut hvalues hmask locks =>
    have hsmall := denominations_small vOut
    omega
  | tried vOut hmake hlength hmask locks =>
    have hsmall := denominations_small vOut
    omega

theorem unspared_fails (h : ¬ Spared H s) :
    ∃ ch r, PrepareDenominate.prepareDarksendDenominate H s ch = some r ∧ ¬ Balanced H s r := by
  unfold Spared at h
  rw [not_or, not_or, not_or, not_or, not_not, not_lt, not_and_or, not_not] at h
  obtain ⟨hunlocked,hpending,hrounds,hsel,hreason⟩ := h
  have hlocked := eq_false_of_ne_true hunlocked
  obtain ⟨v,hv,hleast⟩ := smallest_wanted H s hsel.1
  have hstart : ∀ cs, Lead H s cs → ∃ rest, (H.offered none).Perm (cs++rest) := by
    intro cs hlead
    obtain ⟨found,hfound,hsub⟩ := hlead.among
    obtain ⟨rest,hperm⟩ := hsub.exists_perm_append
    exact ⟨rest,hperm.trans (hfound.append_right rest)⟩
  have hne : ∀ cs, Lead H s cs → cs ≠ [] := by
    intro cs hlead
    obtain ⟨before,z,rfl,_⟩ := hlead.last
    exact List.append_ne_nil_of_right_ne_nil _ (List.cons_ne_nil _ _)
  by_cases hmixed : Mixed H s
  · obtain ⟨w,hw,hwfirst,hwrounds,hwnot⟩ := hmixed
    obtain ⟨ones,hlead,hones⟩ := lead_of_extra H s hsel [w] (le_refl _) (by
      intro c hc
      obtain rfl := List.mem_singleton.mp hc
      exact ⟨hw,hwfirst,hwrounds,hwnot⟩)
    obtain ⟨rest,hperm⟩ := hstart _ hlead
    obtain ⟨r,hr,hend⟩ := lead_ends H s hlocked hpending hrounds hlead hperm v
    refine ⟨_,r,hr,?_⟩
    exact mixed_refused H s hwfirst hwnot hones hsel.2.1 hv hleast
      (denoms_replicate hperm (wanted_denominated (asked H s) hv))
      (fun c hc => hlead.among.subset hc) hend
  · have hlarge := hreason.resolve_right hmixed
    obtain ⟨ones,hlead,_⟩ := lead_of_extra H s hsel [] (Nat.zero_le _) (fun c hc => by cases hc)
    obtain ⟨rest,hperm⟩ := hstart _ hlead
    obtain ⟨r,hr,hend⟩ := lead_ends H s hlocked hpending hrounds hlead hperm v
    exact ⟨_,r,hr,large_refused H s hlarge (hne _ hlead) (fun c hc => hlead.among.subset hc) hend⟩

end Refusal

section Claims

/-- With keys to reserve, a result always comes; it is in balance for all that chance decides
exactly where no coin of another denomination can be chosen. -/
theorem prepare_iff (H : Holdings) (s : Session) :
    (∀ ch, PrepareDenominate.prepareDarksendDenominate H s ch = none → ∃ n, ch.keys n = none) ∧
    ((∀ ch r, PrepareDenominate.prepareDarksendDenominate H s ch = some r → Balanced H s r) ↔ Spared H s) := by
  constructor
  · intro ch hnone
    by_contra hkeys
    rw [not_exists] at hkeys
    obtain ⟨r,hr⟩ := prepare_some H s hkeys
    rw [hr] at hnone
    cases hnone
  · constructor
    · intro h
      by_contra hnot
      obtain ⟨ch,r,hr,hbad⟩ := unspared_fails H s hnot
      exact hbad (h ch r hr)
    · intro h ch r hr
      exact spared_balanced H s ch h hr

def mixedTx : CWalletTx := .ofTx ⟨1,5,[],[⟨10000*coin+10000000,[]⟩,⟨1000*coin+1000000,[]⟩],0⟩ 9

def mixedBuilder : CreateTransaction.Builder where
  env := sampleEnv
  V := ⟨200,fun _ => true,fun _ => true,fun _ => 0,fun _ => 1,[]⟩
  K := ⟨fun _ => true,fun _ => false⟩
  mapWallet := (∅ : MapWallet).insert 5 mixedTx
  fromMe _ := false
  fMinimizeCoinAge := false
  nTransactionFee := 10000
  nDarksendRounds := 2
  rounds _ := 0
  setup := ⟨0,none⟩
  keyScript _ := []

theorem mixed_lookup {k : Uint256} {w : CWalletTx} (h : mixedBuilder.mapWallet.lookup k = some w) :
    k = 5 ∧ w = mixedTx := by
  change ((∅ : MapWallet).insert 5 mixedTx).lookup k = some w at h
  rw [lookup_insert_if] at h
  split at h
  · rename_i hk
    exact ⟨hk,(Option.some.inj h).symm⟩
  · cases h

def mixedHoldings : Holdings where
  builder := mixedBuilder
  pool := .start
  keyed k w h _ := by
    obtain ⟨rfl,rfl⟩ := mixed_lookup h
    rfl
  inRange k w h out hout := by
    obtain ⟨_,rfl⟩ := mixed_lookup h
    have hall : ∀ out ∈ mixedTx.tx.vout, out.nValue ≤ maxMoney := by decide
    exact hall out hout
  owned := ⟨fun r key h => (by cases h),fun key h => (by cases h)⟩

def secondSession : Session := ⟨false,.error,0,2,0,8,false⟩

theorem second_only {v : ℤ} (h : wanted (asked mixedHoldings secondSession) v = true) :
    v = 10000*coin+10000000 := by
  obtain ⟨x,hx,hset,rfl⟩ := (wanted_iff (asked mixedHoldings secondSession) v).mp h
  have hbits : ∀ x ∈ anyBits, Int.testBit 2 x.1 = true → x.2 = 10000*coin+10000000 := by decide
  exact hbits x hx hset

theorem mixed_offered : mixedHoldings.offered none = [⟨mixedTx,0,1,true⟩,⟨mixedTx,1,1,true⟩] := rfl

/-- The coin of the third denomination is taken as well, and both may stay locked. -/
theorem third_taken : ¬ ∀ ch r, PrepareDenominate.prepareDarksendDenominate mixedHoldings secondSession ch = some r →
    Balanced mixedHoldings secondSession r := by
  intro h
  have hnot : ¬ Spared mixedHoldings secondSession := by
    rintro (hlocked | hpending | hrounds | hsel | ⟨_,hmixed⟩)
    · cases hlocked
    · exact hpending.1 rfl
    · exact absurd hrounds (by decide)
    · apply hsel
      refine ⟨⟨10000*coin+10000000,by decide⟩,?_,?_⟩
      · intro v hv
        obtain rfl := second_only hv
        decide
      · intro v hv
        obtain rfl := second_only hv
        refine ⟨⟨mixedTx,0,1,true⟩,?_,rfl,by decide⟩
        rw [mixed_offered]
        exact List.mem_cons_self
    · apply hmixed
      refine ⟨⟨mixedTx,1,1,true⟩,?_,by decide,by decide,by decide⟩
      rw [mixed_offered]
      exact List.mem_cons_of_mem _ List.mem_cons_self
  obtain ⟨ch,r,hr,hbad⟩ := unspared_fails mixedHoldings secondSession hnot
  exact hbad (h ch r hr)

end Claims

end SwippCore.DenominateRefusals
