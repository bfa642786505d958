import Mathlib.Data.List.Nodup
import Mathlib.Data.Nat.Bitwise

/-!
# Hash trees over rows of any length

Two by two the nodes of a row are hashed to the row above it, where the last node of an
odd row stands for both of its pair, up to a row of one. A branch leads from every node
to the root. The doubled node is what lets two rows have one root; where no row repeats
a node and no node of a lowest row is the hash of a pair, the root tells the rows apart.
-/

set_option autoImplicit false

namespace MerkleTree

variable {H : Type} (pair : H → H → H)

def pairUp : List H → List (H × H)
  | [] => []
  | [a] => [(a,a)]
  | a::b::row => (a,b)::pairUp row

def level (row : List H) : List H := (pairUp row).map (fun p => pair p.1 p.2)

theorem pair_up_length (row : List H) : (pairUp row).length = (row.length+1)/2 := by
  induction row using pairUp.induct with
  | case1 => simp [pairUp]
  | case2 a => simp [pairUp]
  | case3 a b row ih =>
    simp only [pairUp, List.length_cons, ih]
    omega

theorem level_length (row : List H) : (level pair row).length = (row.length+1)/2 := by
  rw [level, List.length_map, pair_up_length]

def hashed (row : List H) : List (H × H) :=
  if row.length ≤ 1 then [] else pairUp row++hashed (level pair row)
termination_by row.length
decreasing_by
  rw [level_length]
  omega

def inner (row : List H) : List H := (hashed pair row).map (fun p => pair p.1 p.2)

variable {row : List H}

theorem inner_small (h : row.length ≤ 1) : inner pair row = [] := by
  rw [inner, hashed, if_pos h]
  rfl

theorem inner_large (h : ¬ row.length ≤ 1) :
    inner pair row = level pair row++inner pair (level pair row) := by
  rw [inner, hashed, if_neg h, List.map_append]
  rfl

def root (row : List H) : Option H := (row++inner pair row).getLast?

theorem root_small (h : row.length ≤ 1) : root pair row = row.head? := by
  rw [root, inner_small pair h, List.append_nil]
  match row, h with
  | [], _ => rfl
  | [a], _ => rfl

theorem root_large (h : ¬ row.length ≤ 1) : root pair row = root pair (level pair row) := by
  rw [root, inner_large pair h, List.getLast?_append]
  have hne : (level pair row++inner pair (level pair row)).getLast?.isSome = true := by
    rw [List.getLast?_isSome]
    intro hnil
    have hlen := congrArg List.length hnil
    rw [List.length_append, level_length, List.length_nil] at hlen
    omega
  rw [Option.or_of_isSome hne]
  rfl

section Branch

theorem level_get (row : List H) (k : ℕ) (a b : H) (ha : row[2*k]? = some a)
    (hb : row[min (2*k+1) (row.length-1)]? = some b) : (level pair row)[k]? = some (pair a b) := by
  induction row using pairUp.induct generalizing k with
  | case1 => simp at ha
  | case2 c =>
    obtain ⟨hk,_⟩ := List.getElem?_eq_some_iff.mp ha
    obtain rfl : k = 0 := by
      simp only [List.length_singleton] at hk
      omega
    obtain rfl : c = a := by simpa using ha
    obtain rfl : c = b := by simpa using hb
    rfl
  | case3 c d row ih =>
    cases k with
    | zero =>
      obtain rfl : c = a := by simpa using ha
      obtain rfl : d = b := by simpa using hb
      rfl
    | succ k =>
      have ha' : row[2*k]? = some a := by simpa [Nat.mul_add] using ha
      obtain ⟨hk,_⟩ := List.getElem?_eq_some_iff.mp ha'
      apply ih k ha'
      rw [← hb, List.length_cons, List.length_cons,
        show min (2*(k+1)+1) (row.length+1+1-1) = min (2*k+1) (row.length-1)+1+1 by omega]
      rfl

def branch (row : List H) (i : ℕ) : List H :=
  if row.length ≤ 1 then []
  else (row[min (i ^^^ 1) (row.length-1)]?).toList++branch (level pair row) (i/2)
termination_by row.length
decreasing_by
  rw [level_length]
  omega

def climb : H → ℕ → List H → H
  | h, _, [] => h
  | h, i, side::sides => climb (if i % 2 = 1 then pair side h else pair h side) (i/2) sides

theorem climb_branch {row : List H} {i : ℕ} {h : H} (hi : row[i]? = some h) :
    root pair row = some (climb pair h i (branch pair row i)) := by
  induction row using hashed.induct pair generalizing i h with
  | case1 row hsmall =>
    obtain ⟨hlt,_⟩ := List.getElem?_eq_some_iff.mp hi
    obtain rfl : i = 0 := by omega
    rw [root_small pair hsmall, branch, if_pos hsmall, climb, List.head?_eq_getElem?, hi]
  | case2 row hlarge ih =>
    obtain ⟨hlt,_⟩ := List.getElem?_eq_some_iff.mp hi
    have hside : min (i ^^^ 1) (row.length-1) < row.length := by omega
    obtain ⟨side,hget⟩ : ∃ side, row[min (i ^^^ 1) (row.length-1)]? = some side :=
      ⟨_,List.getElem?_eq_getElem hside⟩
    rw [root_large pair hlarge, branch, if_neg hlarge, hget]
    apply ih
    split_ifs with hodd
    · rw [Nat.xor_one_of_odd (Nat.odd_iff.mpr hodd)] at hget
      apply level_get pair row (i/2)
      · rw [← hget]
        congr 1
        omega
      · rw [← hi]
        congr 1
        omega
    · rw [Nat.xor_one_of_even (Nat.even_iff.mpr (by omega))] at hget
      apply level_get pair row (i/2)
      · rw [← hi]
        congr 1
        omega
      · rw [← hget]
        congr 1
        omega

end Branch

section Distinct

theorem map_inj_on {A B : Type} {f : A → B} (xs ys : List A)
    (hf : ∀ x ∈ xs, ∀ y ∈ ys, f x = f y → x = y) (h : xs.map f = ys.map f) : xs = ys := by
  induction xs generalizing ys with
  | nil => exact (List.map_eq_nil_iff.mp h.symm).symm
  | cons x xs ih =>
    cases ys with
    | nil => cases h
    | cons y ys =>
      obtain ⟨hxy,hrest⟩ := List.cons.inj h
      rw [hf x (by simp) y (by simp) hxy,
        ih ys (fun a ha b hb => hf a (by simp [ha]) b (by simp [hb])) hrest]

theorem pair_up_inj (row row' : List H) (hd : row.Nodup) (hd' : row'.Nodup)
    (h : pairUp row = pairUp row') : row = row' := by
  induction row using pairUp.induct generalizing row' with
  | case1 =>
    match row', h with
    | [], _ => rfl
    | [b], h => cases h
    | b::c::r, h => cases h
  | case2 a =>
    match row', h with
    | [], h => cases h
    | [b], h => rw [(Prod.mk.inj (List.cons.inj h).1).1]
    | b::c::r, h =>
      obtain ⟨hb,hc⟩ := Prod.mk.inj (List.cons.inj h).1
      rw [← hb, ← hc] at hd'
      simp at hd'
  | case3 a b row ih =>
    match row', h with
    | [], h => cases h
    | [c], h =>
      obtain ⟨ha,hb⟩ := Prod.mk.inj (List.cons.inj h).1
      rw [ha, hb] at hd
      simp at hd
    | c::d::r, h =>
      obtain ⟨hpair,hrest⟩ := List.cons.inj h
      obtain ⟨rfl,rfl⟩ := Prod.mk.inj hpair
      rw [ih r (hd.of_cons.of_cons) (hd'.of_cons.of_cons) hrest]

variable {row : List H}

theorem pair_up_mem {p : H × H} (hp : p ∈ pairUp row) : p.1 ∈ row := by
  induction row using pairUp.induct with
  | case1 => cases hp
  | case2 a =>
    rw [List.mem_singleton.mp hp]
    simp
  | case3 a b row ih =>
    rcases List.mem_cons.mp hp with rfl | hp
    · simp
    · simp [ih hp]

theorem pair_up_nodup (hd : row.Nodup) : (pairUp row).Nodup := by
  induction row using pairUp.induct with
  | case1 => exact List.nodup_nil
  | case2 a => exact List.nodup_singleton _
  | case3 a b row ih =>
    refine List.nodup_cons.mpr ⟨fun hin => ?_,ih hd.of_cons.of_cons⟩
    have hrow := pair_up_mem hin
    simp [hrow] at hd

def InjectiveOn (ps : List (H × H)) : Prop :=
  ∀ p ∈ ps, ∀ q ∈ ps, pair p.1 p.2 = pair q.1 q.2 → p = q

theorem injective_on_mono {ps qs : List (H × H)} (h : InjectiveOn pair qs) (hsub : ps ⊆ qs) :
    InjectiveOn pair ps :=
  fun p hp q hq => h p (hsub hp) q (hsub hq)

theorem level_nodup (hd : row.Nodup) (hinj : InjectiveOn pair (pairUp row)) :
    (level pair row).Nodup :=
  List.Nodup.map_on (fun p hp q hq h => hinj p hp q hq h) (pair_up_nodup hd)

theorem level_inj {row' : List H} (hd : row.Nodup) (hd' : row'.Nodup)
    (hinj : InjectiveOn pair (pairUp row++pairUp row')) (h : level pair row = level pair row') :
    row = row' := by
  apply pair_up_inj row row' hd hd'
  apply map_inj_on _ _ _ h
  intro p hp q hq
  exact hinj p (List.mem_append_left _ hp) q (List.mem_append_right _ hq)

theorem hashed_large (h : ¬ row.length ≤ 1) :
    hashed pair row = pairUp row++hashed pair (level pair row) := by
  rw [hashed, if_neg h]

theorem hashed_mem {p : H × H} (hp : p ∈ hashed pair row) : p.1 ∈ row++inner pair row := by
  induction row using hashed.induct pair with
  | case1 row hsmall =>
    rw [hashed, if_pos hsmall] at hp
    cases hp
  | case2 row hlarge ih =>
    rw [hashed_large pair hlarge] at hp
    rcases List.mem_append.mp hp with hp | hp
    · exact List.mem_append_left _ (pair_up_mem hp)
    · rw [inner_large pair hlarge]
      exact List.mem_append_right _ (ih hp)

theorem root_inner (hlarge : ¬ row.length ≤ 1) : ∃ r ∈ inner pair row, root pair row = some r := by
  have hne : inner pair row ≠ [] := by
    intro hnil
    have hlen := congrArg List.length hnil
    rw [inner_large pair hlarge, List.length_append, level_length, List.length_nil] at hlen
    omega
  refine ⟨_,List.getLast_mem hne,?_⟩
  rw [root, List.getLast?_append, List.getLast?_eq_some_getLast hne]
  rfl

def Apart (row row' : List H) : Prop := ∀ h ∈ row, h ∉ inner pair row'

theorem apart_level {row' : List H} (hlarge : ¬ row'.length ≤ 1)
    (hinj : InjectiveOn pair (pairUp row++hashed pair row')) (h : Apart pair row row') :
    Apart pair (level pair row) (level pair row') := by
  intro x hx hin
  obtain ⟨p,hp,rfl⟩ := List.mem_map.mp hx
  obtain ⟨q,hq,heq⟩ := List.mem_map.mp hin
  have hqrow : q ∈ hashed pair row' := by
    rw [hashed_large pair hlarge]
    exact List.mem_append_right _ hq
  have hpq := hinj q (List.mem_append_right _ hqrow) p (List.mem_append_left _ hp) heq
  apply h p.1 (pair_up_mem hp)
  rw [← hpq, inner_large pair hlarge]
  exact hashed_mem pair hq

theorem root_inj {row' : List H} (hne : row ≠ []) (hne' : row' ≠ []) (hd : row.Nodup)
    (hd' : row'.Nodup) (hinj : InjectiveOn pair (hashed pair row++hashed pair row'))
    (hab : Apart pair row row') (hba : Apart pair row' row) (h : root pair row = root pair row') :
    row = row' := by
  have hsingle : ∀ l : List H, l ≠ [] → l.length ≤ 1 → ∃ a, l = [a] := by
    intro l hl hlen
    exact List.length_eq_one_iff.mp (Nat.le_antisymm hlen (List.length_pos_iff.mpr hl))
  -- on the row above, what is apart stays apart and what is not repeated is not repeated there
  induction row using hashed.induct pair generalizing row' with
  | case1 row hsmall =>
    obtain ⟨a,rfl⟩ := hsingle row hne hsmall
    rw [root_small pair hsmall] at h
    by_cases hsmall' : row'.length ≤ 1
    · obtain ⟨b,rfl⟩ := hsingle row' hne' hsmall'
      rw [root_small pair hsmall'] at h
      rw [Option.some.inj h]
    · obtain ⟨r,hr,hroot⟩ := root_inner pair hsmall'
      rw [hroot] at h
      exact absurd ((Option.some.inj h) ▸ hr) (hab a (by simp))
  | case2 row hlarge ih =>
    by_cases hsmall' : row'.length ≤ 1
    · obtain ⟨b,rfl⟩ := hsingle row' hne' hsmall'
      obtain ⟨r,hr,hroot⟩ := root_inner pair hlarge
      rw [hroot, root_small pair hsmall'] at h
      exact absurd ((Option.some.inj h) ▸ hr) (hba b (by simp))
    · have hpairs := hashed_large pair hlarge
      have hpairs' := hashed_large pair hsmall'
      have hup : ∀ l : List H, ¬ l.length ≤ 1 → level pair l ≠ [] := by
        intro l hl hnil
        have hlen := congrArg List.length hnil
        rw [level_length, List.length_nil] at hlen
        omega
      have hmono : ∀ ps : List (H × H), (∀ p ∈ ps, (p ∈ pairUp row ∨ p ∈ hashed pair (level pair row)) ∨
          p ∈ pairUp row' ∨ p ∈ hashed pair (level pair row')) → InjectiveOn pair ps := by
        intro ps hps
        apply injective_on_mono pair hinj
        intro p hp
        rw [hpairs, hpairs', List.mem_append, List.mem_append, List.mem_append]
        exact hps p hp
      apply level_inj pair hd hd' (hmono _ (by simp; tauto))
      apply ih
      · exact hup row hlarge
      · exact hup row' hsmall'
      · exact level_nodup pair hd (hmono _ (by simp; tauto))
      · exact level_nodup pair hd' (hmono _ (by simp; tauto))
      · exact hmono _ (by simp; tauto)
      · exact apart_level pair hsmall' (hmono _ (by simp [hpairs']; tauto)) hab
      · exact apart_level pair hlarge (hmono _ (by simp [hpairs]; tauto)) hba
      · rw [← root_large pair hlarge, ← root_large pair hsmall', h]

end Distinct

end MerkleTree
