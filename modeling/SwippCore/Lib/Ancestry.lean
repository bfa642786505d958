import Mathlib.Data.Int.Notation
import Mathlib.Data.List.Nodup

/-!
# Paths and levels

Paths along parent pointers, and the levels of a path.
-/

set_option autoImplicit false

/-! ## Paths in a forest of parent pointers -/

namespace Ancestry

variable {N ε : Type} (parent : N → Option N) (height : N → ℤ)

structure Graded : Prop where
  nonneg : ∀ n, 0 ≤ height n
  step : ∀ n p, parent n = some p → height n = height p+1

def walk : ℕ → N → List N
  | 0, n => [n]
  | k+1, n => n::((parent n).map (walk k)).getD []

def path (n : N) : List N := walk parent (height n).toNat n

def climb (level : ℤ) : ℕ → N → Option N
  | 0, n => if level < height n then none else some n
  | k+1, n => if level < height n then (parent n).bind (climb level k) else some n

/-- The place where the paths of two vertices meet; the second one is moved down to
the level of the first, and then the first one step. -/
def fork [DecidableEq N] (errLonger errFork : ε) : ℕ → N → N → Except ε N
  | 0, _, _ => .error errFork
  | k+1, a, b =>
    if a = b then .ok a
    else
      match climb parent height (height a) (height b).toNat b with
      | none => .error errLonger
      | some c =>
        if a = c then .ok a
        else
          match parent a with
          | none => .error errFork
          | some p => fork errLonger errFork k p c

def segment [DecidableEq N] (stop : N) : ℕ → N → Option (List N)
  | 0, n => if n = stop then some [] else none
  | k+1, n =>
    if n = stop then some []
    else (parent n).bind (fun p => (segment stop k p).map (n::·))

def Ascends : N → List N → N → Prop
  | p, [], n => p = n
  | p, x::xs, n => parent x = some p ∧ Ascends x xs n

theorem ascends_append (p q n : N) (xs ys : List N) (h : Ascends parent p xs q)
    (h' : Ascends parent q ys n) : Ascends parent p (xs++ys) n := by
  induction xs generalizing p with
  | nil => exact h ▸ h'
  | cons x xs ih => exact ⟨h.1,ih x h.2⟩

theorem ascends_last (p : N) {x n : N} {xs : List N} (h : Ascends parent p (xs++[x]) n) :
    x = n ∧ ∃ q, parent x = some q ∧ Ascends parent p xs q := by
  induction xs generalizing p with
  | nil => exact ⟨h.2,p,h.1,rfl⟩
  | cons y ys ih =>
    obtain ⟨hx,q,hq,hys⟩ := ih y h.2
    exact ⟨hx,q,hq,h.1,hys⟩

theorem segment_ascends [DecidableEq N] {stop : N} {k : ℕ} (n : N) (xs : List N)
    (h : segment parent stop k n = some xs) : Ascends parent stop xs.reverse n := by
  induction k generalizing n xs with
  | zero =>
    rw [segment] at h
    split_ifs at h with hn
    rw [← Option.some_inj.mp h]
    exact hn.symm
  | succ k ih =>
    rw [segment] at h
    split_ifs at h with hn
    · rw [← Option.some_inj.mp h]
      exact hn.symm
    · obtain ⟨p,hp,h⟩ := Option.bind_eq_some_iff.mp h
      obtain ⟨ys,hys,rfl⟩ := Option.map_eq_some_iff.mp h
      rw [List.reverse_cons]
      exact ascends_append parent stop p n _ [n] (ih p ys hys) ⟨hp,rfl⟩

theorem ascends_parent (p n : N) {xs : List N} (h : Ascends parent p xs n) {x : N} (hx : x ∈ xs) :
    ∃ q, parent x = some q := by
  induction xs generalizing p with
  | nil => simp at hx
  | cons y ys ih =>
    rcases List.mem_cons.mp hx with rfl | hx
    · exact ⟨p,h.1⟩
    · exact ih y h.2 hx

theorem path_none {n : N} (h : parent n = none) : path parent height n = [n] := by
  unfold path
  cases (height n).toNat <;> simp [walk, h]

section Graded
variable {parent height} (g : Graded parent height)
include g

theorem path_some {n p : N} (h : parent n = some p) :
    path parent height n = n::path parent height p := by
  have hs := g.step n p h
  have hp := g.nonneg p
  have hk : (height n).toNat = (height p).toNat+1 := by omega
  simp [path, hk, walk, h]

theorem up_induction {motive : N → Prop} (root : ∀ n, parent n = none → motive n)
    (up : ∀ n p, parent n = some p → motive p → motive n) (n : N) : motive n := by
  generalize hk : (height n).toNat = k
  induction k generalizing n with
  | zero =>
    cases hp : parent n with
    | none => exact root n hp
    | some p =>
      have hs := g.step n p hp
      have hn := g.nonneg p
      omega
  | succ k ih =>
    cases hp : parent n with
    | none => exact root n hp
    | some p =>
      have hs := g.step n p hp
      have hn := g.nonneg p
      exact up n p hp (ih p (by omega))

variable (n : N)

theorem self_mem : n ∈ path parent height n := by
  cases hp : parent n with
  | none => simp [path_none parent height hp]
  | some p => simp [path_some g hp]

theorem mem_path_iff (x : N) : x ∈ path parent height n ↔
    x = n ∨ ∃ p, parent n = some p ∧ x ∈ path parent height p := by
  cases hp : parent n with
  | none => simp [path_none parent height hp]
  | some p => simp [path_some g hp]

theorem parent_mem {n x p : N} (hx : x ∈ path parent height n) (hp : parent x = some p) :
    p ∈ path parent height n := by
  induction n using up_induction g with
  | root n hn =>
    rw [path_none parent height hn, List.mem_singleton] at hx
    rw [hx, hn] at hp
    exact absurd hp (by simp)
  | up n q hq ih =>
    rw [path_some g hq] at hx ⊢
    rcases List.mem_cons.mp hx with rfl | hx
    · rw [hq] at hp
      rw [← Option.some_inj.mp hp]
      exact List.mem_cons_of_mem _ (self_mem g q)
    · exact List.mem_cons_of_mem _ (ih hx)

theorem mem_path_child (x : N) :
    x ∈ path parent height n ↔ x = n ∨ ∃ c ∈ path parent height n, parent c = some x := by
  constructor
  · intro hx
    induction n using up_induction g with
    | root n hn =>
      rw [path_none parent height hn, List.mem_singleton] at hx
      exact Or.inl hx
    | up n q hq ih =>
      rw [path_some g hq] at hx ⊢
      rcases List.mem_cons.mp hx with hx | hx
      · exact Or.inl hx
      · rcases ih hx with rfl | ⟨c,hc,hp⟩
        · exact Or.inr ⟨n,List.mem_cons_self,hq⟩
        · exact Or.inr ⟨c,List.mem_cons_of_mem n hc,hp⟩
  · rintro (rfl | ⟨c,hc,hp⟩)
    · exact self_mem g x
    · exact parent_mem g hc hp

theorem height_le {n x : N} (hx : x ∈ path parent height n) :
    height x ≤ height n ∧ (height x = height n → x = n) := by
  induction n using up_induction g with
  | root n hn =>
    rw [path_none parent height hn, List.mem_singleton] at hx
    exact ⟨Int.le_of_eq (by rw [hx]),fun _ => hx⟩
  | up n p hp ih =>
    rw [path_some g hp] at hx
    have hs := g.step n p hp
    rcases List.mem_cons.mp hx with hx | hx
    · exact ⟨Int.le_of_eq (by rw [hx]),fun _ => hx⟩
    · have hl := (ih hx).1
      exact ⟨by omega,fun h => by omega⟩

theorem path_trans {n x y : N} (hx : x ∈ path parent height n) (hy : y ∈ path parent height x) :
    y ∈ path parent height n := by
  induction n using up_induction g with
  | root n hn =>
    rw [path_none parent height hn, List.mem_singleton] at hx
    rwa [hx] at hy
  | up n p hp ih =>
    rw [path_some g hp] at hx ⊢
    rcases List.mem_cons.mp hx with rfl | hx
    · rwa [path_some g hp] at hy
    · exact List.mem_cons_of_mem _ (ih hx)

theorem path_nodup : (path parent height n).Nodup := by
  induction n using up_induction g with
  | root n hn => simp [path_none parent height hn]
  | up n p hp ih =>
    rw [path_some g hp, List.nodup_cons]
    refine ⟨?_,ih⟩
    intro hn
    have hl := (height_le g hn).1
    have hs := g.step n p hp
    omega

variable {k : ℕ}

theorem climb_spec {level : ℤ} {c : N} (h : climb parent height level k n = some c) :
    c ∈ path parent height n ∧ height c ≤ level ∧
      ∀ x ∈ path parent height n, height x ≤ level → x ∈ path parent height c := by
  induction k generalizing n with
  | zero =>
    rw [climb] at h
    split_ifs at h with hl
    obtain rfl := Option.some_inj.mp h
    exact ⟨self_mem g n,by omega,fun x hx _ => hx⟩
  | succ k ih =>
    rw [climb] at h
    split_ifs at h with hl
    · obtain ⟨p,hp,h⟩ := Option.bind_eq_some_iff.mp h
      obtain ⟨hc,hle,hall⟩ := ih p h
      refine ⟨?_,hle,?_⟩
      · rw [path_some g hp]
        exact List.mem_cons_of_mem n hc
      · intro x hx hxl
        rw [path_some g hp] at hx
        rcases List.mem_cons.mp hx with rfl | hx
        · omega
        · exact hall x hx hxl
    · obtain rfl := Option.some_inj.mp h
      exact ⟨self_mem g n,by omega,fun x hx _ => hx⟩

theorem fork_spec [DecidableEq N] {e e' : ε} (a b : N) {f : N}
    (h : fork parent height e e' k a b = .ok f) :
    f ∈ path parent height a ∧ f ∈ path parent height b ∧
      ∀ x, x ∈ path parent height a → x ∈ path parent height b → x ∈ path parent height f := by
  induction k generalizing a b with
  | zero => simp [fork] at h
  | succ k ih =>
    rw [fork] at h
    split_ifs at h with hab
    · rw [Except.ok.injEq] at h
      subst hab h
      exact ⟨self_mem g a,self_mem g a,fun x hx _ => hx⟩
    · cases hc : climb parent height (height a) (height b).toNat b with
      | none => simp [hc] at h
      | some c =>
        obtain ⟨hcb,hcl,hcall⟩ := climb_spec g b hc
        simp only [hc] at h
        split_ifs at h with hac
        · rw [Except.ok.injEq] at h
          subst hac h
          exact ⟨self_mem g a,hcb,fun x hx _ => hx⟩
        · cases hp : parent a with
          | none => simp [hp] at h
          | some p =>
            simp only [hp] at h
            obtain ⟨hfp,hfc,hall⟩ := ih p c h
            have hpa : ∀ x ∈ path parent height p, x ∈ path parent height a := by
              intro x hx
              rw [path_some g hp]
              exact List.mem_cons_of_mem a hx
            refine ⟨hpa f hfp,path_trans g hcb hfc,?_⟩
            intro x hxa hxb
            have hxc := hcall x hxb (height_le g hxa).1
            apply hall x _ hxc
            rw [path_some g hp] at hxa
            rcases List.mem_cons.mp hxa with rfl | hxa
            · -- the first vertex is not on the path of the one moved down to its level
              have hle := height_le g hxc
              exact absurd (hle.2 (by omega)) hac
            · exact hxa

theorem segment_spec [DecidableEq N] {stop : N} (xs : List N)
    (h : segment parent stop k n = some xs) :
    path parent height n = xs++path parent height stop ∧ ∀ x ∈ xs, height stop < height x := by
  induction k generalizing n xs with
  | zero =>
    rw [segment] at h
    split_ifs at h with hn
    obtain rfl := Option.some_inj.mp h
    exact ⟨by rw [hn]; rfl,by simp⟩
  | succ k ih =>
    rw [segment] at h
    split_ifs at h with hn
    · obtain rfl := Option.some_inj.mp h
      exact ⟨by rw [hn]; rfl,by simp⟩
    · obtain ⟨p,hp,h⟩ := Option.bind_eq_some_iff.mp h
      obtain ⟨ys,hys,rfl⟩ := Option.map_eq_some_iff.mp h
      obtain ⟨hpath,hall⟩ := ih p ys hys
      refine ⟨by rw [path_some g hp, hpath]; rfl,?_⟩
      intro x hx
      rcases List.mem_cons.mp hx with rfl | hx
      · have hs := g.step x p hp
        have hstop : stop ∈ path parent height p := by
          rw [hpath]
          exact List.mem_append_right ys (self_mem g stop)
        have hl := (height_le g hstop).1
        omega
      · exact hall x hx

theorem segments_apart [DecidableEq N] {e e' : ε} {j : ℕ} {a b f : N} {xs : List N}
    (h : fork parent height e e' k a b = .ok f) (hxs : segment parent f j b = some xs) {x : N}
    (hx : x ∈ xs) : x ∉ path parent height a := by
  intro hxa
  obtain ⟨_,_,hall⟩ := fork_spec g a b h
  obtain ⟨hpath,hgt⟩ := segment_spec g b xs hxs
  have hxb : x ∈ path parent height b := by
    rw [hpath]
    exact List.mem_append_left _ hx
  have hl := (height_le g (hall x hxa hxb)).1
  have hh := hgt x hx
  omega

theorem ascends_path (p : N) {n : N} {xs : List N} (h : Ascends parent p xs n) :
    path parent height n = xs.reverse++path parent height p := by
  induction xs generalizing p with
  | nil =>
    rw [show p = n from h]
    rfl
  | cons x xs ih =>
    rw [ih x h.2, path_some g h.1, List.reverse_cons, List.append_assoc]
    rfl

theorem ascends_height (p n : N) {xs : List N} (h : Ascends parent p xs n) {x : N} (hx : x ∈ xs) :
    height p < height x := by
  induction xs generalizing p with
  | nil => simp at hx
  | cons y ys ih =>
    have hs := g.step y p h.1
    rcases List.mem_cons.mp hx with rfl | hx
    · omega
    · have hlt := ih y h.2 hx
      omega

theorem parent_height_lt {n c p : N} (hc : c ∈ path parent height n) (hp : parent c = some p) :
    height p < height n := by
  have hs := g.step c p hp
  have hl := (height_le g hc).1
  omega

theorem segment_total [DecidableEq N] {stop : N} (hk : (height n).toNat ≤ k)
    (h : stop ∈ path parent height n) : ∃ xs, segment parent stop k n = some xs := by
  induction k generalizing n with
  | zero =>
    have hle := height_le g h
    have hn := g.nonneg stop
    have heq : stop = n := hle.2 (by omega)
    exact ⟨[],by rw [segment, if_pos heq.symm]⟩
  | succ k ih =>
    rw [segment]
    split_ifs with hn
    · exact ⟨[],rfl⟩
    · rcases (mem_path_iff g n stop).mp h with heq | ⟨p,hp,hmem⟩
      · exact absurd heq.symm hn
      · have hs := g.step n p hp
        obtain ⟨xs,hxs⟩ := ih p (by omega) hmem
        exact ⟨n::xs,by simp [hp, hxs]⟩

end Graded

end Ancestry

/-! ## Levels of a path -/

namespace Ancestry

variable {N ε : Type} {parent : N → Option N} {height : N → ℤ} (g : Graded parent height)
include g

theorem path_root (n : N) : ∃ r ∈ path parent height n, parent r = none := by
  induction n using up_induction g with
  | root n hn => exact ⟨n,self_mem g n,hn⟩
  | up n p hp ih =>
    obtain ⟨r,hr,hroot⟩ := ih
    exact ⟨r,by rw [path_some g hp]; exact List.mem_cons_of_mem n hr,hroot⟩

theorem path_level {n x : N} (i : ℕ) (h : (path parent height n)[i]? = some x) :
    height x = height n-i := by
  induction n using up_induction g generalizing i with
  | root n hn =>
    rw [path_none parent height hn] at h
    cases i with
    | zero =>
      obtain rfl := Option.some.inj h
      simp
    | succ i => simp at h
  | up n p hp ih =>
    rw [path_some g hp] at h
    cases i with
    | zero =>
      obtain rfl := Option.some.inj h
      simp
    | succ i =>
      have hi := ih i h
      have hs := g.step n p hp
      push_cast
      omega

theorem path_self (n : N) : (path parent height n)[0]? = some n := by
  obtain ⟨i,hi⟩ := List.mem_iff_getElem?.mp (self_mem g n)
  have hlevel := path_level g i hi
  rwa [show i = 0 by omega] at hi

theorem path_next {n x : N} (i : ℕ) (h : (path parent height n)[i]? = some x) :
    parent x = (path parent height n)[i+1]? := by
  induction n using up_induction g generalizing i with
  | root n hn =>
    rw [path_none parent height hn] at h ⊢
    cases i with
    | zero =>
      obtain rfl := Option.some.inj h
      exact hn
    | succ i => simp at h
  | up n p hp ih =>
    rw [path_some g hp] at h ⊢
    cases i with
    | zero =>
      obtain rfl := Option.some.inj h
      rw [hp]
      obtain ⟨ys,hys⟩ : ∃ ys, path parent height p = p::ys := by
        cases hpp : parent p with
        | none => exact ⟨[],path_none parent height hpp⟩
        | some q => exact ⟨_,path_some g hpp⟩
      rw [hys]
      rfl
    | succ i => exact ih i h

section
variable {n x y : N} (hx : x ∈ path parent height n) (hy : y ∈ path parent height n)
include n hx hy

theorem path_same_level
    (h : height x = height y) : x = y := by
  obtain ⟨i,hi⟩ := List.mem_iff_getElem?.mp hx
  obtain ⟨j,hj⟩ := List.mem_iff_getElem?.mp hy
  have hxi := path_level g i hi
  have hyj := path_level g j hj
  have hij : i = j := by omega
  rw [hij, hj] at hi
  exact (Option.some.inj hi).symm

theorem path_below
    (h : height x ≤ height y) : x ∈ path parent height y := by
  induction n using up_induction g with
  | root n hn =>
    rw [path_none parent height hn, List.mem_singleton] at hx hy
    rw [hx, hy]
    exact self_mem g n
  | up n p hp ih =>
    have hpath := path_some g hp
    rw [hpath] at hx hy
    rcases List.mem_cons.mp hy with rfl | hyp
    · rw [hpath]
      exact hx
    · rcases List.mem_cons.mp hx with rfl | hxp
      · have hle := (height_le g hyp).1
        have hs := g.step x p hp
        omega
      · exact ih hxp hyp

end

theorem climb_level (level : ℤ) (k : ℕ) (n : N) {r : N} (hk : (height n).toNat ≤ k)
    (hr : r ∈ path parent height n) (hlevel : height r ≤ level) :
    ∃ c, climb parent height level k n = some c ∧ (level ≤ height n → height c = level) := by
  induction k generalizing n with
  | zero =>
    have hpos := g.nonneg r
    exact ⟨n,by rw [climb, if_neg (by omega)],fun hl => by omega⟩
  | succ k ih =>
    rw [climb]
    split_ifs with hl
    · rcases (mem_path_iff g n r).mp hr with rfl | ⟨p,hp,hrp⟩
      · omega
      · have hs := g.step n p hp
        obtain ⟨c,hc,hcl⟩ := ih p (by omega) hrp
        refine ⟨c,by rw [hp]; exact hc,fun _ => hcl ?_⟩
        omega
    · exact ⟨n,rfl,fun hle => by omega⟩

/-- Paths with a common vertex: the search for the place where they meet finds it. -/
theorem fork_total [DecidableEq N] (e e' : ε) {k : ℕ} (a b : N) {r : N} (hk : (height a).toNat < k)
    (ha : r ∈ path parent height a) (hb : r ∈ path parent height b) :
    ∃ f, fork parent height e e' k a b = .ok f := by
  induction k generalizing a b with
  | zero => exact absurd hk (Nat.not_lt_zero _)
  | succ k ih =>
    rw [fork]
    split_ifs with hab
    · exact ⟨a,rfl⟩
    · have hra := (height_le g ha).1
      obtain ⟨c,hc,-⟩ := climb_level g (height a) (height b).toNat b (Nat.le_refl _) hb hra
      obtain ⟨-,hcl,hall⟩ := climb_spec g b hc
      have hrc := hall r hb hra
      rw [hc]
      dsimp only
      split_ifs with hac
      · exact ⟨a,rfl⟩
      · rcases (mem_path_iff g a r).mp ha with rfl | ⟨p,hp,hrp⟩
        · -- the common vertex is the first one, and the other has been moved down to its level
          have hle := height_le g hrc
          exact absurd (hle.2 (by omega)) hac
        · have hs := g.step a p hp
          have hpos := g.nonneg p
          rw [hp]
          exact ih p c (by omega) hrp hrc

end Ancestry
