import SwippCore.Lib.Median
import SwippCore.Script

/-!
# The clocks of the peers

A version message brings the clock of its sender. The difference to the own clock is
filed once for every address, and the median of the last two hundred becomes the
offset of the node unless it is seventy minutes or more.
-/

set_option autoImplicit false

namespace SwippCore

structure CMedianFilter where
  vValues : List ℤ
  vSorted : List ℤ
  nSize : ℕ
  ordered : vSorted = vValues.insertionSort (· ≤ ·)

namespace CMedianFilter

def new (size : ℕ) (initial_value : ℤ) : CMedianFilter := ⟨[initial_value],[initial_value],size,rfl⟩

def input (value : ℤ) (f : CMedianFilter) : CMedianFilter :=
  let vValues := (if f.vValues.length = f.nSize then f.vValues.drop 1 else f.vValues)++[value]
  ⟨vValues,vValues.insertionSort (· ≤ ·),f.nSize,rfl⟩

def size (f : CMedianFilter) : ℕ := f.vValues.length

def entry (f : CMedianFilter) (i : ℕ) : ℤ := f.vSorted.getD i 0

def median (f : CMedianFilter) : ℤ :=
  let size := f.vSorted.length
  if size%2 = 1 then f.entry (size/2)
  else (int64 (f.entry (size/2-1)+f.entry (size/2))).tdiv 2

end CMedianFilter

def abs64 (n : ℤ) : ℤ := if 0 ≤ n then n else int64 (-n)

namespace TimeData
open Median

section State
variable {Addr : Type}

structure State (Addr : Type) where
  setKnown : List Addr
  vTimeOffsets : CMedianFilter
  nTimeOffset : ℤ
  fDone : Bool
  strMiscWarning : String

def start : State Addr := ⟨[],CMedianFilter.new 200 0,0,false,""⟩

/-- `AddTimeData` for an address, with the time of its version message and the own clock. -/
structure Call (Addr : Type) where
  ip : Addr
  nTime : ℤ
  now : ℤ

def warning : String :=
  "Warning: Please check that your computer's date and time are correct! " ++
  "If your clock is wrong Swipp will not work properly."

def sample (c : Call Addr) : ℤ := int64 (c.nTime-c.now)

def fMatch (vSorted : List ℤ) : Bool := vSorted.any fun n => n ≠ 0 ∧ abs64 n < 5*60

def Judged (f : CMedianFilter) : Prop := 5 ≤ f.size ∧ f.size%2 = 1

instance (f : CMedianFilter) : Decidable (Judged f) := inferInstanceAs (Decidable (_ ∧ _))

def judge (s : State Addr) : State Addr :=
  if Judged s.vTimeOffsets then
    let nMedian := s.vTimeOffsets.median
    if abs64 nMedian < 70*60 then { s with nTimeOffset := nMedian }
    else if s.fDone ∨ fMatch s.vTimeOffsets.vSorted then { s with nTimeOffset := 0 }
    else { s with nTimeOffset := 0, fDone := true, strMiscWarning := warning }
  else s

def insert (c : Call Addr) (s : State Addr) : State Addr :=
  { s with setKnown := c.ip::s.setKnown, vTimeOffsets := s.vTimeOffsets.input (sample c) }

variable [DecidableEq Addr]

def addTimeData (c : Call Addr) (s : State Addr) : State Addr :=
  if c.ip ∈ s.setKnown then s else judge (insert c s)

def run (cs : List (Call Addr)) (s : State Addr) : State Addr :=
  cs.foldl (fun s c => addTimeData c s) s

def negations (n : ℤ) : List ℤ := if 0 ≤ n then [] else [-n]

def sums (f : CMedianFilter) : List ℤ :=
  let size := f.vSorted.length
  if size%2 = 1 then [] else [f.entry (size/2-1)+f.entry (size/2)]

def weighed (s : State Addr) : List ℤ :=
  if Judged s.vTimeOffsets then
    let nMedian := s.vTimeOffsets.median
    sums s.vTimeOffsets++negations nMedian++
      if abs64 nMedian < 70*60 ∨ s.fDone then []
      else s.vTimeOffsets.vSorted.flatMap fun n => if n ≠ 0 then negations n else []
  else []

def computed (c : Call Addr) (s : State Addr) : List ℤ :=
  (c.nTime-c.now)::if c.ip ∈ s.setKnown then [] else weighed (insert c s)

def Int64 (n : ℤ) : Prop := -2^63 ≤ n ∧ n < 2^63

def Exact (c : Call Addr) (s : State Addr) : Prop := ∀ n ∈ computed c s, Int64 n

def Every (P : Call Addr → State Addr → Prop) : List (Call Addr) → State Addr → Prop
  | [], _ => True
  | c::cs, s => P c s ∧ Every P cs (addTimeData c s)

def firsts : List Addr → List (Call Addr) → List (Call Addr)
  | _, [] => []
  | known, c::cs => if c.ip ∈ known then firsts known cs else c::firsts (c.ip::known) cs

end State

def latest (n : ℕ) (xs : List ℤ) : List ℤ := xs.drop (xs.length-n)

theorem latest_concat {n : ℕ} (xs : List ℤ) (v : ℤ) (hn : 0 < n) :
    latest n (xs++[v]) =
      (if (latest n xs).length = n then (latest n xs).drop 1 else latest n xs)++[v] := by
  have hl : (latest n xs).length = xs.length-(xs.length-n) := List.length_drop
  by_cases h : n ≤ xs.length
  · rw [if_pos (by omega)]
    simp only [latest, List.length_append, List.length_singleton, List.drop_drop]
    rw [List.drop_append_of_le_length (by omega)]
    congr 2
    omega
  · rw [if_neg (by omega)]
    simp only [latest, List.length_append, List.length_singleton]
    rw [Nat.sub_eq_zero_of_le (by omega), Nat.sub_eq_zero_of_le (by omega)]
    rfl

theorem sorted_length (f : CMedianFilter) : f.vSorted.length = f.size := by
  rw [f.ordered, List.length_insertionSort]
  rfl

theorem median_spec {f : CMedianFilter} (h : Judged f) : IsMedian f.median f.vValues := by
  have hs : f.vSorted.length%2 = 1 := by
    rw [sorted_length]
    exact h.2
  have hi : f.vSorted.length/2 < f.vSorted.length := by omega
  have hm : f.median = f.vSorted[f.vSorted.length/2] := by
    simp only [CMedianFilter.median, if_pos hs, CMedianFilter.entry]
    rw [List.getD_eq_getElem?_getD, List.getElem?_eq_getElem hi]
    rfl
  rw [hm]
  apply middle_median _ _ hs hi
  · rw [f.ordered]
    exact List.perm_insertionSort _ _
  · rw [f.ordered]
    exact List.pairwise_insertionSort _ _

theorem sums_nil {f : CMedianFilter} (h : Judged f) : sums f = [] := by
  simp only [sums]
  rw [if_pos]
  rw [sorted_length]
  exact h.2

def lowest : ℤ := -2^63

theorem int64_ranged (v : ℤ) : Int64 (int64 v) := by
  have hlo := (BitVec.ofInt 64 v).le_toInt
  have hhi := (BitVec.ofInt 64 v).toInt_lt
  exact ⟨hlo,hhi⟩

theorem int64_of_ranged {v : ℤ} (h : Int64 v) : int64 v = v := by
  have h' := h
  simp only [Int64] at h'
  rw [int64, BitVec.toInt_ofInt, Int.bmod_eq_of_le_mul_two] <;> omega

theorem negations_iff {n : ℤ} (h : Int64 n) : (∀ x ∈ negations n, Int64 x) ↔ n ≠ lowest := by
  simp only [Int64] at h
  simp only [negations, lowest, Int64]
  split
  · simp
    omega
  · simp only [List.mem_singleton, forall_eq]
    omega

theorem abs64_eq {n : ℤ} (h : Int64 n) (hn : n ≠ lowest) : abs64 n = |n| := by
  have h' := h
  simp only [Int64] at h'
  simp only [lowest] at hn
  simp only [abs64]
  split
  · rename_i h0
    exact (abs_of_nonneg h0).symm
  · rename_i h0
    rw [int64_of_ranged ⟨by omega,by omega⟩, abs_of_neg (by omega)]

section Calls
variable {Addr : Type}

def Ranged (s : State Addr) : Prop := ∀ v ∈ s.vTimeOffsets.vValues, Int64 v

def window (s : State Addr) : List ℤ := s.vTimeOffsets.vValues

def Near (w : List ℤ) : Prop :=
  w.length < 2*below (70*60) w ∧ w.length < 2*above (-(70*60)) w

def Tame (s : State Addr) : Prop :=
  (window s).length < 2*above lowest (window s) ∧
    (Near (window s) ∨ s.fDone = true ∨ lowest ∉ window s)

theorem near_iff {f : CMedianFilter} (h : Judged f) : Near f.vValues ↔ |f.median| < 70*60 := by
  have hm := median_spec h
  have ho : f.vValues.length%2 = 1 := h.2
  rw [Near, ← median_lt_iff _ _ hm ho, ← lt_median_iff _ _ hm ho, abs_lt]
  exact and_comm

variable {s : State Addr}

theorem median_ranged (h : Judged s.vTimeOffsets) (hr : Ranged s) :
    Int64 s.vTimeOffsets.median := hr _ (median_spec h).mem

theorem not_lowest_iff (h : Judged s.vTimeOffsets) (hr : Ranged s) :
    s.vTimeOffsets.median ≠ lowest ↔ (window s).length < 2*above lowest (window s) := by
  have hm := median_spec h
  have hi := median_ranged h hr
  rw [window, ← lt_median_iff _ _ hm h.2]
  simp only [Int64] at hi
  simp only [lowest]
  omega

theorem scanned_iff (hr : Ranged s) :
    (∀ x ∈ s.vTimeOffsets.vSorted.flatMap fun n => if n ≠ 0 then negations n else [], Int64 x) ↔
      lowest ∉ window s := by
  have hmem : ∀ n, n ∈ s.vTimeOffsets.vSorted ↔ n ∈ window s := by
    intro n
    rw [s.vTimeOffsets.ordered]
    exact List.mem_insertionSort _
  constructor
  · intro h hl
    apply (negations_iff (by simp [Int64, lowest])).mp _ rfl
    intro x hx
    exact h x (List.mem_flatMap.mpr ⟨lowest,(hmem _).mpr hl,by simpa [lowest] using hx⟩)
  · intro h x hx
    obtain ⟨n,hn,hx⟩ := List.mem_flatMap.mp hx
    have hw := (hmem n).mp hn
    split at hx
    · have hne : n ≠ lowest := by
        rintro rfl
        exact h hw
      exact (negations_iff (hr n hw)).mpr hne x hx
    · cases hx

theorem weighed_iff (hr : Ranged s) :
    (∀ x ∈ weighed s, Int64 x) ↔ (Judged s.vTimeOffsets → Tame s) := by
  by_cases h : Judged s.vTimeOffsets
  · have hi := median_ranged h hr
    rw [weighed, if_pos h]
    dsimp only
    rw [sums_nil h, List.nil_append]
    simp only [List.mem_append, or_imp, forall_and, h, forall_const]
    rw [negations_iff hi, Tame, ← not_lowest_iff h hr]
    apply and_congr_right
    intro hne
    rw [abs64_eq hi hne, window, near_iff h, ← or_assoc]
    split
    · rename_i hn
      exact ⟨fun _ => Or.inl hn,fun _ => by simp⟩
    · rename_i hn
      rw [scanned_iff hr]
      exact (or_iff_right hn).symm
  · rw [weighed, if_neg h]
    simp [h]

theorem judge_offset (h : Judged s.vTimeOffsets) (hr : Ranged s)
    (hne : s.vTimeOffsets.median ≠ lowest) :
    (judge s).nTimeOffset =
      if |s.vTimeOffsets.median| < 70*60 then s.vTimeOffsets.median else 0 := by
  rw [judge, if_pos h, ← abs64_eq (median_ranged h hr) hne]
  dsimp only
  by_cases hb : abs64 s.vTimeOffsets.median < 70*60
  · rw [if_pos hb, if_pos hb]
  · rw [if_neg hb, if_neg hb]
    split <;> rfl

theorem judge_unjudged (h : ¬Judged s.vTimeOffsets) : judge s = s := if_neg h

theorem judge_known (s : State Addr) : (judge s).setKnown = s.setKnown := by
  rw [judge]
  split
  · dsimp only
    split
    · rfl
    · split <;> rfl
  · rfl

theorem judge_filter (s : State Addr) : (judge s).vTimeOffsets = s.vTimeOffsets := by
  rw [judge]
  split
  · dsimp only
    split
    · rfl
    · split <;> rfl
  · rfl

end Calls

section Runs
variable {Addr : Type} [DecidableEq Addr]

def Meets (c : Call Addr) (s : State Addr) : Prop :=
  Int64 (c.nTime-c.now) ∧
    (c.ip ∉ s.setKnown → Judged (insert c s).vTimeOffsets → Tame (insert c s))

def Follows (c : Call Addr) (s : State Addr) : Prop :=
  c.ip ∉ s.setKnown →
    if Judged (addTimeData c s).vTimeOffsets then
      ∃ m, IsMedian m (window (addTimeData c s)) ∧
        (addTimeData c s).nTimeOffset = if |m| < 70*60 then m else 0
    else (addTimeData c s).nTimeOffset = s.nTimeOffset

structure Sound (cs : List (Call Addr)) : Prop where
  exact : Every Exact cs start
  bounded : ∀ pre, pre <+: cs → |(run pre start).nTimeOffset| < 70*60
  once : ∀ pre, pre <+: cs → run pre start = run (firsts [] pre) start
  recent : ∀ pre, pre <+: cs → window (run pre start) =
    latest 200 (0::(firsts [] pre).map fun c => c.nTime-c.now)
  follows : Every Follows cs start

omit [DecidableEq Addr] in
theorem ranged_start : Ranged (start : State Addr) := by
  intro v hv
  rw [List.mem_singleton.mp hv]
  simp [Int64]

variable (c : Call Addr) {s : State Addr}

omit [DecidableEq Addr] in
theorem ranged_insert (h : Ranged s) : Ranged (insert c s) := by
  intro v hv
  rcases List.mem_append.mp hv with hv | hv
  · split at hv
    · exact h v (List.mem_of_mem_drop hv)
    · exact h v hv
  · rw [List.mem_singleton.mp hv]
    exact int64_ranged _

theorem ranged_call (h : Ranged s) : Ranged (addTimeData c s) := by
  rw [addTimeData]
  split
  · exact h
  · rw [Ranged, judge_filter]
    exact ranged_insert c h

theorem exact_meets_iff (s : State Addr) (h : Ranged s) : Exact c s ↔ Meets c s := by
  rw [Exact, computed, List.forall_mem_cons, Meets]
  apply and_congr_right
  intro _
  split
  · rename_i hk
    simp [hk]
  · rename_i hk
    rw [weighed_iff (ranged_insert c h)]
    simp [hk]

theorem every_congr (P Q : Call Addr → State Addr → Prop)
    (h : ∀ c s, Ranged s → (P c s ↔ Q c s)) (cs : List (Call Addr)) (s : State Addr)
    (hr : Ranged s) : Every P cs s ↔ Every Q cs s := by
  induction cs generalizing s with
  | nil => exact Iff.rfl
  | cons c cs ih =>
    exact and_congr (h c s hr) (ih _ (ranged_call c hr))

theorem every_prefix {P : Call Addr → State Addr → Prop} (pre cs : List (Call Addr))
    (s : State Addr) (hp : pre <+: cs) (h : Every P cs s) : Every P pre s := by
  induction cs generalizing pre s with
  | nil =>
    rw [List.prefix_nil.mp hp]
    trivial
  | cons c cs ih =>
    cases pre with
    | nil => trivial
    | cons d pre =>
      obtain ⟨hdc,hp'⟩ := List.cons_prefix_cons.mp hp
      rw [hdc]
      exact ⟨h.1,ih pre _ hp' h.2⟩

theorem call_follows {c : Call Addr} (hr : Ranged s) (h : Meets c s) : Follows c s := by
  intro hk
  have hi := ranged_insert c hr
  rw [addTimeData, if_neg hk]
  rw [window, judge_filter]
  split
  · rename_i hj
    have hne := (not_lowest_iff hj hi).mpr (h.2 hk hj).1
    exact ⟨_,median_spec hj,judge_offset hj hi hne⟩
  · rename_i hj
    rw [judge_unjudged hj]
    rfl

theorem call_bounded {c : Call Addr} (hr : Ranged s) (h : Meets c s)
    (hb : |s.nTimeOffset| < 70*60) : |(addTimeData c s).nTimeOffset| < 70*60 := by
  by_cases hk : c.ip ∈ s.setKnown
  · rw [addTimeData, if_pos hk]
    exact hb
  · have hf := call_follows hr h hk
    split at hf
    · obtain ⟨m,_,hm⟩ := hf
      rw [hm]
      split
      · assumption
      · simp
    · rw [hf]
      exact hb

theorem run_bounded (cs : List (Call Addr)) (s : State Addr) (hr : Ranged s)
    (h : Every Meets cs s) (hb : |s.nTimeOffset| < 70*60) :
    |(run cs s).nTimeOffset| < 70*60 := by
  induction cs generalizing s with
  | nil => exact hb
  | cons c cs ih =>
    exact ih _ (ranged_call c hr) h.2 (call_bounded hr h.1 hb)

variable {cs : List (Call Addr)}

theorem run_follows (s : State Addr) (hr : Ranged s) (h : Every Meets cs s) :
    Every Follows cs s := by
  induction cs generalizing s with
  | nil => trivial
  | cons c cs ih => exact ⟨call_follows hr h.1,ih _ (ranged_call c hr) h.2⟩

theorem call_new {c : Call Addr} (h : c.ip ∉ s.setKnown) :
    (addTimeData c s).setKnown = c.ip::s.setKnown ∧
      (addTimeData c s).vTimeOffsets = s.vTimeOffsets.input (sample c) := by
  rw [addTimeData, if_neg h, judge_known, judge_filter]
  exact ⟨rfl,rfl⟩

theorem run_firsts (cs : List (Call Addr)) (s : State Addr) :
    run cs s = run (firsts s.setKnown cs) s := by
  induction cs generalizing s with
  | nil => rfl
  | cons c cs ih =>
    rw [firsts]
    split
    · rename_i hk
      rw [← ih, run, List.foldl_cons, addTimeData, if_pos hk]
      rfl
    · rename_i hk
      have hs := ih (addTimeData c s)
      rw [(call_new hk).1] at hs
      exact hs

omit [DecidableEq Addr] in
theorem input_latest {n : ℕ} {xs : List ℤ} (v : ℤ) {f : CMedianFilter} (hn : 0 < n)
    (hs : f.nSize = n) (hf : f.vValues = latest n xs) :
    (f.input v).vValues = latest n (xs++[v]) := by
  rw [latest_concat xs v hn, ← hf, ← hs]
  rfl

/-- The filter holds the latest of what came before and the first sample of each address. -/
theorem run_latest (xs : List ℤ) (s : State Addr) (hs : s.vTimeOffsets.nSize = 200)
    (hf : window s = latest 200 xs) (h : Every (fun c _ => Int64 (c.nTime-c.now)) cs s) :
    window (run cs s) = latest 200 (xs++(firsts s.setKnown cs).map fun c => c.nTime-c.now) := by
  induction cs generalizing xs s with
  | nil => simpa [firsts, run] using hf
  | cons c cs ih =>
    rw [firsts]
    by_cases hk : c.ip ∈ s.setKnown
    · have hc : addTimeData c s = s := if_pos hk
      have h2 := h.2
      rw [hc] at h2
      rw [if_pos hk, ← ih xs s hs hf h2, run, List.foldl_cons, hc]
      rfl
    · obtain ⟨hkn,hfi⟩ := call_new hk
      have hw : window (addTimeData c s) = latest 200 (xs++[c.nTime-c.now]) := by
        rw [window, hfi, sample, int64_of_ranged h.1]
        exact input_latest _ (by omega) hs hf
      have hi := ih (xs++[c.nTime-c.now]) (addTimeData c s) (by rw [hfi]; exact hs) hw h.2
      rw [hkn, List.append_assoc] at hi
      rw [if_neg hk]
      exact hi

theorem every_imp (P Q : Call Addr → State Addr → Prop) (h : ∀ c s, P c s → Q c s) (s : State Addr)
    (he : Every P cs s) : Every Q cs s := by
  induction cs generalizing s with
  | nil => trivial
  | cons c cs ih => exact ⟨h c s he.1,ih _ he.2⟩

/-- The clock is sound along a run exactly if every call of it meets the condition. -/
theorem clock_sound_iff (cs : List (Call Addr)) : Sound cs ↔ Every Meets cs start := by
  have hcongr := every_congr Exact Meets exact_meets_iff cs start ranged_start
  constructor
  · intro h
    exact hcongr.mp h.exact
  · intro h
    have hpre : ∀ pre, pre <+: cs → Every Meets pre start :=
      fun pre hp => every_prefix pre cs start hp h
    refine ⟨hcongr.mpr h,?_,?_,?_,run_follows start ranged_start h⟩
    · intro pre hp
      exact run_bounded pre start ranged_start (hpre pre hp) (by simp [start])
    · intro pre _
      exact run_firsts pre start
    · intro pre hp
      exact run_latest [0] start rfl rfl (every_imp _ _ (fun _ _ h => h.1) _ (hpre pre hp))

end Runs

/-- Four peers whose clocks are as far behind as can be: the offset is the lowest number. -/
theorem four_lowest_clocks : ¬∀ cs : List (Call ℕ),
    (∀ c ∈ cs, Int64 c.nTime ∧ Int64 c.now) → Sound cs := by
  intro h
  let late : ℕ → Call ℕ := fun n => ⟨n,lowest+1500000000,1500000000⟩
  have hs := h [late 1,late 2,late 3,late 4] (by
    intro c hc
    simp only [List.mem_cons, List.not_mem_nil, or_false] at hc
    rcases hc with rfl | rfl | rfl | rfl <;> simp [late, Int64, lowest])
  have hb := hs.bounded _ (List.prefix_refl _)
  revert hb
  decide

end TimeData
end SwippCore
