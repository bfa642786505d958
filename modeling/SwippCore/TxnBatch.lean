import SwippCore.Lib.Memo

/-!
# Reading one's own writes in CTxDB

Keys and values are the byte strings that LevelDB stores. A pending batch is the
sequence of its puts and deletes, which LevelDB applies as a whole and in order.
`Read` and `Exists` scan it from the front and keep what the last record of their
key says. `Read` stops at an erased key; `Exists` asks the database for it.
-/

set_option autoImplicit false

namespace SwippCore.TxnBatch

abbrev Bytes := List UInt8

inductive Status where
  | ok (value : Bytes)
  | notFound
  | failed
  deriving DecidableEq, Repr

inductive Record where
  | put (key value : Bytes)
  | delete (key : Bytes)
  deriving DecidableEq, Repr

structure CTxDB where
  pdb : Bytes → Status
  activeBatch : Option (List Record)
  fReadOnly : Bool

structure CBatchScanner where
  foundEntry : Bool
  deleted : Bool
  foundValue : Bytes
  deriving DecidableEq, Repr

def CBatchScanner.visit (needle : Bytes) (s : CBatchScanner) : Record → CBatchScanner
  | .put key value => if key = needle then ⟨true,false,value⟩ else s
  | .delete key => if key = needle then { s with foundEntry := true, deleted := true } else s

def iterate (needle : Bytes) : List Record → CBatchScanner → CBatchScanner
  | [], s => s
  | r::rs, s => iterate needle rs (s.visit needle r)

def scanBatch (key value : Bytes) (batch : List Record) : CBatchScanner :=
  iterate key batch ⟨false,false,value⟩

def applyRecord (pdb : Bytes → Status) : Record → Bytes → Status
  | .put key value => Function.update pdb key (.ok value)
  | .delete key => Function.update pdb key .notFound

def applyBatch : List Record → (Bytes → Status) → Bytes → Status
  | [], pdb => pdb
  | r::rs, pdb => applyBatch rs (applyRecord pdb r)

namespace CTxDB
variable {T : Type}

/-- `Read` where the batch has no record of the key. -/
def readFromDb (unserialize : Bytes → Option T) (key : Bytes) (db : CTxDB) : Option T :=
  match db.pdb key with
  | .ok value => unserialize value
  | _ => none

def read (unserialize : Bytes → Option T) (key : Bytes) (db : CTxDB) : Option T :=
  match db.activeBatch with
  | none => db.readFromDb unserialize key
  | some batch =>
    let s := scanBatch key [] batch
    if s.deleted then none
    else if s.foundEntry then unserialize s.foundValue
    else db.readFromDb unserialize key

/-- `IsNotFound` is all that is asked of the status. -/
def existsInDb (key : Bytes) (db : CTxDB) : Bool := db.pdb key != .notFound

def exists? (key : Bytes) (db : CTxDB) : Bool :=
  match db.activeBatch with
  | none => db.existsInDb key
  | some batch =>
    let s := scanBatch key [] batch
    if s.foundEntry && !s.deleted then true else db.existsInDb key

def record (ok : Bool) (r : Record) (db : CTxDB) : CTxDB × Bool :=
  match db.activeBatch with
  | some batch => ({ db with activeBatch := some (batch++[r]) },true)
  | none => if ok then ({ db with pdb := applyRecord db.pdb r },true) else (db,false)

def write (ok : Bool) (key value : Bytes) (db : CTxDB) : Option (CTxDB × Bool) :=
  if db.fReadOnly then none else some (db.record ok (.put key value))

def erase (ok : Bool) (key : Bytes) (db : CTxDB) : Option (CTxDB × Bool) :=
  if db.fReadOnly then none else some (db.record ok (.delete key))

def txnBegin (db : CTxDB) : Option CTxDB :=
  match db.activeBatch with
  | some _ => none
  | none => some { db with activeBatch := some [] }

def txnCommit (ok : Bool) (db : CTxDB) : Option (CTxDB × Bool) :=
  match db.activeBatch with
  | none => none
  | some batch => some (⟨if ok then applyBatch batch db.pdb else db.pdb,none,db.fReadOnly⟩,ok)

def txnAbort (db : CTxDB) : CTxDB := { db with activeBatch := none }

end CTxDB

inductive Call (T : Type) where
  | write (key value : Bytes)
  | erase (key : Bytes)
  | read (unserialize : Bytes → Option T) (key : Bytes)
  | exists (key : Bytes)

inductive Answer (T : Type) where
  | written (ok : Bool)
  | value (v : Option T)
  | present (b : Bool)
  | aborted

variable {T : Type}

def call (db : CTxDB) : Call T → Option (CTxDB × Answer T)
  | .write key value => (db.write true key value).map (fun r => (r.1,.written r.2))
  | .erase key => (db.erase true key).map (fun r => (r.1,.written r.2))
  | .read unserialize key => some (db,.value (db.read unserialize key))
  | .exists key => some (db,.present (db.exists? key))

def answers : List (Call T) → CTxDB → List (Answer T)
  | [], _ => []
  | c::cs, db =>
    match call db c with
    | none => [.aborted]
    | some (db,a) => a::answers cs db

def after : List (Call T) → CTxDB → Option CTxDB
  | [], db => some db
  | c::cs, db => (call db c).bind (fun r => after cs r.1)

section Last
variable (key : Bytes)

def Record.about : Record → Option (Option Bytes)
  | .put k v => if k = key then some (some v) else none
  | .delete k => if k = key then some none else none

def last : List Record → Option (Option Bytes)
  | [] => none
  | r::rs => (last rs).or (r.about key)

theorem iterate_cases (rs : List Record) (s : CBatchScanner) :
    (last key rs = none → iterate key rs s = s) ∧
      (∀ v, last key rs = some (some v) → iterate key rs s = ⟨true,false,v⟩) ∧
      (last key rs = some none → (iterate key rs s).foundEntry = true ∧
        (iterate key rs s).deleted = true) := by
  induction rs generalizing s with
  | nil => simp [last, iterate]
  | cons r rs ih =>
    obtain ⟨hnone,hput,hdel⟩ := ih (s.visit key r)
    simp only [last, iterate]
    cases hl : last key rs with
    | some o =>
      refine ⟨by simp,?_,?_⟩
      · intro v hv
        exact hput v (by rw [hl]; simpa using hv)
      · intro hn
        exact hdel (by rw [hl]; simpa using hn)
    | none =>
      rw [hnone hl, Option.none_or]
      cases r with
      | put k v =>
        by_cases hk : k = key
        · simp [Record.about, CBatchScanner.visit, hk]
        · simp [Record.about, CBatchScanner.visit, hk]
      | delete k =>
        by_cases hk : k = key
        · simp [Record.about, CBatchScanner.visit, hk]
        · simp [Record.about, CBatchScanner.visit, hk]

theorem apply_batch_last (rs : List Record) (pdb : Bytes → Status) :
    applyBatch rs pdb key = match last key rs with
      | none => pdb key
      | some none => .notFound
      | some (some v) => .ok v := by
  induction rs generalizing pdb with
  | nil => rfl
  | cons r rs ih =>
    rw [applyBatch, ih, last]
    cases hl : last key rs with
    | some o => cases o <;> rfl
    | none =>
      cases r with
      | put k v =>
        by_cases hk : k = key
        · simp [Record.about, applyRecord, hk]
        · simp [Record.about, applyRecord, hk, Function.update_of_ne (Ne.symm hk)]
      | delete k =>
        by_cases hk : k = key
        · simp [Record.about, applyRecord, hk]
        · simp [Record.about, applyRecord, hk, Function.update_of_ne (Ne.symm hk)]

end Last

theorem apply_batch_append (rs rs' : List Record) (pdb : Bytes → Status) :
    applyBatch (rs++rs') pdb = applyBatch rs' (applyBatch rs pdb) := by
  induction rs generalizing pdb with
  | nil => rfl
  | cons r rs ih => exact ih _

def toBatched (db : CTxDB) : Batched (Bytes → Status) :=
  ⟨db.pdb,db.activeBatch.map (fun batch => applyBatch batch db.pdb)⟩

def flushed (db : CTxDB) : CTxDB := ⟨(toBatched db).view,none,db.fReadOnly⟩

section Refinement
variable (db : CTxDB)

theorem to_batched_begin (db' : CTxDB) (h : db.txnBegin = some db') :
    toBatched db' = (toBatched db).begin := by
  unfold CTxDB.txnBegin at h
  cases hb : db.activeBatch with
  | some batch => simp [hb] at h
  | none =>
    simp only [hb, Option.some_inj] at h
    rw [← h]
    rfl

theorem to_batched_record (r : Record) :
    toBatched (db.record true r).1 = (toBatched db).modify (fun pdb => applyRecord pdb r) := by
  cases hb : db.activeBatch with
  | none => simp [toBatched, CTxDB.record, Batched.modify, hb]
  | some batch => simp [toBatched, CTxDB.record, Batched.modify, hb, apply_batch_append, applyBatch]

theorem to_batched_commit (ok : Bool) (r : CTxDB × Bool) (h : db.txnCommit ok = some r) :
    toBatched r.1 = (toBatched db).commit ok ∧ r.2 = ok := by
  unfold CTxDB.txnCommit at h
  cases hb : db.activeBatch with
  | none => simp [hb] at h
  | some batch =>
    simp only [hb, Option.some_inj] at h
    subst h
    cases ok <;> simp [toBatched, Batched.commit, Batched.abort, Batched.view, hb]

theorem to_batched_abort : toBatched db.txnAbort = (toBatched db).abort := rfl

theorem read_flushed (unserialize : Bytes → Option T) (key : Bytes) :
    db.read unserialize key = (flushed db).read unserialize key := by
  cases hb : db.activeBatch with
  | none => simp [CTxDB.read, CTxDB.readFromDb, flushed, toBatched, Batched.view, hb]
  | some batch =>
    obtain ⟨hnone,hput,hdel⟩ := iterate_cases key batch ⟨false,false,[]⟩
    have hview := apply_batch_last key batch db.pdb
    simp only [CTxDB.read, CTxDB.readFromDb, flushed, toBatched, Batched.view, hb, scanBatch,
      Option.map_some, Option.getD_some]
    rw [hview]
    cases hl : last key batch with
    | none => simp [hnone hl]
    | some o =>
      cases o with
      | none => simp [hdel hl]
      | some v => simp [hput v hl]

def ErasedOnly (key : Bytes) : Prop :=
  ∃ batch, db.activeBatch = some batch ∧ last key batch = some none ∧ db.pdb key ≠ .notFound

/-- An existence test answers as if the batch had been applied, unless the key is
erased there. -/
theorem exists_flushed_iff (key : Bytes) :
    db.exists? key = (flushed db).exists? key ↔ ¬ErasedOnly db key := by
  cases hb : db.activeBatch with
  | none =>
    simp [CTxDB.exists?, CTxDB.existsInDb, flushed, toBatched, Batched.view, ErasedOnly, hb]
  | some batch =>
    obtain ⟨hnone,hput,hdel⟩ := iterate_cases key batch ⟨false,false,[]⟩
    have hview := apply_batch_last key batch db.pdb
    simp only [CTxDB.exists?, CTxDB.existsInDb, flushed, toBatched, Batched.view, hb, scanBatch,
      Option.map_some, Option.getD_some, ErasedOnly, Option.some_inj, exists_eq_left']
    rw [hview]
    cases hl : last key batch with
    | none => simp [hnone hl]
    | some o =>
      cases o with
      | none => simp [hdel hl]
      | some v => simp [hput v hl]

end Refinement

section Calls
variable (db : CTxDB)

def Call.record? : Call T → Option Record
  | .write key value => some (.put key value)
  | .erase key => some (.delete key)
  | _ => none

def records (cs : List (Call T)) : List Record := cs.filterMap Call.record?

theorem flushed_record (r : Record) :
    flushed (db.record true r).1 = ((flushed db).record true r).1 ∧
      (db.record true r).2 = ((flushed db).record true r).2 := by
  have hview := congrArg Batched.view (to_batched_record db r)
  rw [Batched.view_modify] at hview
  constructor
  · simp only [flushed, hview]
    cases hb : db.activeBatch <;> simp [CTxDB.record, hb]
  · cases hb : db.activeBatch <;> simp [CTxDB.record, flushed, hb]

/-- Every call other than a misled existence test goes as on the flushed database. -/
theorem call_flushed {c : Call T} (h : ∀ key, c = .exists key → ¬ErasedOnly db key) :
    call (flushed db) c = (call db c).map (fun r => (flushed r.1,r.2)) := by
  cases c with
  | write key value =>
    obtain ⟨hdb,hok⟩ := flushed_record db (.put key value)
    simp only [call, CTxDB.write, show (flushed db).fReadOnly = db.fReadOnly from rfl]
    cases db.fReadOnly
    · simp [← hdb, ← hok]
    · rfl
  | erase key =>
    obtain ⟨hdb,hok⟩ := flushed_record db (.delete key)
    simp only [call, CTxDB.erase, show (flushed db).fReadOnly = db.fReadOnly from rfl]
    cases db.fReadOnly
    · simp [← hdb, ← hok]
    · rfl
  | read unserialize key => simp [call, ← read_flushed db unserialize key]
  | «exists» key => simp [call, ← (exists_flushed_iff db key).mpr (h key rfl)]

theorem call_batch (batch : List Record) (hb : db.activeBatch = some batch) (c : Call T)
    (db' : CTxDB) (a : Answer T) (h : call db c = some (db',a)) :
    db' = { db with activeBatch := some (batch++c.record?.toList) } ∧
      (c.record?.isSome → db.fReadOnly = false) := by
  cases c with
  | write key value =>
    simp only [call, CTxDB.write, CTxDB.record, hb] at h
    cases hr : db.fReadOnly <;> simp_all [Call.record?]
  | erase key =>
    simp only [call, CTxDB.erase, CTxDB.record, hb] at h
    cases hr : db.fReadOnly <;> simp_all [Call.record?]
  | read unserialize key =>
    simp only [call, Option.some_inj, Prod.mk.injEq] at h
    rw [← h.1]
    simp [Call.record?, ← hb]
  | «exists» key =>
    simp only [call, Option.some_inj, Prod.mk.injEq] at h
    rw [← h.1]
    simp [Call.record?, ← hb]

end Calls

theorem after_batch {cs : List (Call T)} (db db' : CTxDB) (batch : List Record)
    (hb : db.activeBatch = some batch) (h : after cs db = some db') :
    db' = { db with activeBatch := some (batch++records cs) } ∧
      (records cs ≠ [] → db.fReadOnly = false) := by
  induction cs generalizing db batch with
  | nil =>
    simp only [after, Option.some_inj] at h
    simp [records, ← h, ← hb]
  | cons c cs ih =>
    obtain ⟨⟨db1,a⟩,hc,h⟩ := Option.bind_eq_some_iff.mp h
    obtain ⟨rfl,hro⟩ := call_batch db batch hb c db1 a hc
    obtain ⟨rfl,hro'⟩ := ih _ _ rfl h
    cases hrec : c.record? with
    | none => simpa [records, List.filterMap_cons, hrec] using hro'
    | some r => simpa [records, List.filterMap_cons, hrec] using hro (by simp [hrec])

def Heard : List (Call T) → CTxDB → Prop
  | [], _ => True
  | c::cs, db => (∀ key, c = .exists key → ¬ErasedOnly db key) ∧
      ∀ r, call db c = some r → Heard cs r.1

theorem answers_flushed_iff (cs : List (Call T)) (db : CTxDB) :
    answers cs db = answers cs (flushed db) ↔ Heard cs db := by
  induction cs generalizing db with
  | nil => simp [answers, Heard]
  | cons c cs ih =>
    by_cases hc : ∀ key, c = .exists key → ¬ErasedOnly db key
    · simp only [answers, Heard, call_flushed db hc]
      cases hcall : call db c with
      | none => simpa using hc
      | some r =>
        simp only [Option.map_some, List.cons.injEq, true_and, ih, Option.some_inj, forall_eq']
        exact ⟨fun hr => ⟨hc,hr⟩,And.right⟩
    · have hno : ¬Heard (c::cs) db := fun h => hc h.1
      push Not at hc
      obtain ⟨key,rfl,he⟩ := hc
      have hne : db.exists? key ≠ (flushed db).exists? key := fun h =>
        (exists_flushed_iff db key).mp h he
      simp [answers, call, hne, hno]

theorem after_flushed {cs : List (Call T)} (db : CTxDB) (h : Heard cs db) :
    after cs (flushed db) = (after cs db).map flushed := by
  induction cs generalizing db with
  | nil => rfl
  | cons c cs ih =>
    simp only [after, call_flushed db h.1]
    cases hcall : call db c with
    | none => rfl
    | some r => exact ih r.1 (h.2 r hcall)

/-- No existence test asks for a key whose last record erases it, while the database
has the key. -/
def NoErasedExists (db : CTxDB) (cs : List (Call T)) : Prop :=
  db.fReadOnly = false → ∀ pre key post, cs = pre++.exists key::post →
    last key (records pre) = some none → db.pdb key = .notFound

structure Transparent (db db0 : CTxDB) (cs : List (Call T)) : Prop where
  answers : answers cs db0 = answers cs db
  commit : ∀ db1, after cs db0 = some db1 → ∃ db2, after cs db = some db2 ∧
    db1.txnCommit true = some (db2,true)
  abort : ∀ db1, after cs db0 = some db1 → db1.txnAbort = db

theorem heard_iff (cs : List (Call T)) (db : CTxDB) (batch : List Record)
    (hro : db.fReadOnly = true → batch = []) :
    Heard cs { db with activeBatch := some batch } ↔ (db.fReadOnly = false →
      ∀ pre key post, cs = pre++.exists key::post → last key (batch++records pre) = some none →
        db.pdb key = .notFound) := by
  induction cs generalizing batch with
  | nil => simp [Heard]
  | cons c cs ih =>
    have hcall := call_batch { db with activeBatch := some batch } batch rfl c
    constructor
    · intro h hw pre key post hsplit hl
      cases pre with
      | nil =>
        obtain ⟨rfl,rfl⟩ := List.cons.inj hsplit
        by_contra hne
        exact h.1 key rfl ⟨batch,rfl,by simpa [records] using hl,hne⟩
      | cons c' pre =>
        obtain ⟨rfl,rfl⟩ := List.cons.inj hsplit
        cases hr : call { db with activeBatch := some batch } c with
        | none => cases c <;> simp_all [call, CTxDB.write, CTxDB.erase]
        | some r =>
          obtain ⟨db1,a⟩ := r
          have hrest := h.2 _ hr
          obtain ⟨rfl,_⟩ := hcall db1 a hr
          apply (ih _ (by simp [hw])).mp hrest hw pre key post rfl
          rw [← hl]
          cases hrec : c.record? <;> simp [records, hrec]
    · intro h
      refine ⟨?_,?_⟩
      · rintro key rfl ⟨batch',hb,hl,hne⟩
        obtain rfl := Option.some_inj.mp hb
        cases hw : db.fReadOnly with
        | true => simp [hro hw, last] at hl
        | false => exact hne (h hw [] key cs rfl (by simpa [records] using hl))
      · rintro ⟨db1,a⟩ hr
        obtain ⟨rfl,hrec⟩ := hcall db1 a hr
        refine (ih _ ?_).mpr ?_
        · intro hw
          cases hc : c.record? with
          | none => simpa using hro hw
          | some r => simp_all
        · intro hw pre key post hsplit hl
          apply h hw (c::pre) key post (by rw [hsplit]; rfl)
          rw [← hl]
          cases hrec : c.record? <;> simp [records, hrec]

theorem begin_flushed {db db0 : CTxDB} (h : db.txnBegin = some db0) :
    db0 = { db with activeBatch := some [] } ∧ flushed db0 = db := by
  unfold CTxDB.txnBegin at h
  cases hb : db.activeBatch with
  | some batch => simp [hb] at h
  | none =>
    simp only [hb, Option.some_inj] at h
    subst h
    exact ⟨rfl,by rw [flushed, ← hb]; rfl⟩

theorem commit_flushed {db : CTxDB} {batch : List Record} (h : db.activeBatch = some batch) :
    db.txnCommit true = some (flushed db,true) := by
  simp [CTxDB.txnCommit, flushed, toBatched, Batched.view, h]

/-- The calls inside a batch go as on a database that is written at once if and only if
no existence test asks for a key that the batch erases and the database has. -/
theorem batch_transparent_iff (db db0 : CTxDB) (h : db.txnBegin = some db0) (cs : List (Call T)) :
    Transparent db db0 cs ↔ NoErasedExists db cs := by
  obtain ⟨hdb0,hfl⟩ := begin_flushed h
  have hheard : Heard cs db0 ↔ NoErasedExists db cs := by
    rw [hdb0]
    exact heard_iff cs db [] (fun _ => rfl)
  rw [← hheard, ← answers_flushed_iff, hfl]
  constructor
  · exact Transparent.answers
  · intro ha
    refine ⟨ha,?_,?_⟩
    · intro db1 h1
      have hflush := after_flushed db0 ((answers_flushed_iff cs db0).mp (by rw [hfl]; exact ha))
      rw [hfl, h1] at hflush
      obtain ⟨rfl,_⟩ := after_batch db0 db1 [] (by rw [hdb0]) h1
      exact ⟨_,hflush,commit_flushed rfl⟩
    · intro db1 h1
      obtain ⟨rfl,_⟩ := after_batch db0 db1 [] (by rw [hdb0]) h1
      cases hb : db.activeBatch with
      | some batch => simp [CTxDB.txnBegin, hb] at h
      | none => simp [CTxDB.txnAbort, hdb0, ← hb]

def oneRecord : CTxDB := ⟨fun key => if key = [1] then .ok [7] else .notFound,none,false⟩

def begun : CTxDB := { oneRecord with activeBatch := some [] }

/-- The key that has just been erased exists. -/
theorem erased_key_exists : oneRecord.txnBegin = some begun ∧
    ¬Transparent (T := Unit) oneRecord begun [.erase [1],.exists [1]] := by
  refine ⟨rfl,?_⟩
  intro h
  have ha := h.answers
  rw [show answers (T := Unit) [.erase [1],.exists [1]] begun = [.written true,.present true] from rfl,
    show answers (T := Unit) [.erase [1],.exists [1]] oneRecord = [.written true,.present false]
      from rfl] at ha
  simp at ha

/-- A key that is erased and written again. -/
theorem rewritten_key_exists :
    Transparent oneRecord begun [.erase [1],.read some [1],.write [1] [8],.exists [1]] := by
  refine (batch_transparent_iff oneRecord begun rfl _).mpr ?_
  intro _ pre key post hsplit hl
  rcases pre with _ | ⟨a,_ | ⟨b,_ | ⟨c,_ | ⟨d,pre⟩⟩⟩⟩ <;> simp at hsplit
  obtain ⟨rfl,rfl,rfl,rfl,_⟩ := hsplit
  cases hl

end SwippCore.TxnBatch
