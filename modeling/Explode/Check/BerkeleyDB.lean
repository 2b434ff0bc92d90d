import Explode.Driver.ArchiveCode
import Explode.Lib.ByteStream
import Mathlib.Tactic

/-!
# The checker of Berkeley DB

Each transaction puts records numbered on from those before it. Of every
transaction only the number of its last record is noted, after the crash check
at its end. A crash check ends the path, and the next path goes on with the
numbers that the paths before it have noted.
-/

namespace Explode.Check

open Driver (intBytes intOf)
open ByteStream (IsInt)

/-- The options, such that an int fits a key, a key fits its buffer, which is allocated with the
length of the data, and the number of transactions and the record numbers are ints. -/
structure BdbOptions where
  keylen : Nat
  datalen : Nat
  puts : Nat
  commits : Nat
  keylen_ge : 4 ≤ keylen
  datalen_ge : keylen ≤ datalen
  commits_lt : commits < 2147483648
  isInt : commits * puts ≤ 2147483648

/-- `set_string`: whole ints, and the first bytes of one more. -/
def setString (id : Int) (len : Nat) : Bytes :=
  (List.replicate (len / 4) (intBytes id)).flatten ++ (intBytes id).take (len % 4)

namespace BdbOptions

variable (o : BdbOptions)

theorem four_le_datalen : 4 ≤ o.datalen := o.keylen_ge.trans o.datalen_ge

def getKey (id : Int) : Bytes := setString id o.keylen

def getData (id : Int) : Bytes := setString id o.datalen

end BdbOptions

structure Database where
  entries : List (Bytes × Bytes)
  nodup : (entries.map Prod.fst).Nodup

def Database.get (db : Database) (key : Bytes) : Option Bytes :=
  (db.entries.find? fun e => e.1 = key).map Prod.snd

/-- `commit_epoch_t` -/
inductive Epoch
  | beforeCommit
  | inCommit
  | afterCommit
  deriving DecidableEq, Repr

structure CrashCheck where
  txn : Nat
  epoch : Epoch
  id : Int
  committed : List Int
  deriving DecidableEq, Repr

def putLoop (puts i : Nat) (id : Int) : Int :=
  (List.range puts).foldl (fun _ j => ((i * puts + j : Nat) : Int)) id

/-- One run of `mutate`: what its variable `id` holds at first and what `xe_random` gives at the
commits, where no more answers stand for zeros. -/
structure Path where
  garbage : Int
  choices : List Bool
  isInt : IsInt garbage

/-- The loop over the transactions: the crash checks and the numbers noted. A zero at
`begin_commit` or `end_commit` checks the crashes and ends the path there. -/
def mutateLoop (puts : Nat) :
    Nat → Nat → Int → List Int → List Bool → List CrashCheck × List Int
  | 0, _, _, committed, _ => ([], committed)
  | n + 1, i, id, committed, choices =>
    let id := putLoop puts i id
    match choices with
    | true :: true :: choices => mutateLoop puts n (i + 1) id (committed ++ [id]) choices
    | true :: _ => ([⟨i, .inCommit, id, committed⟩, ⟨i, .afterCommit, id, committed⟩], committed)
    | _ => ([⟨i, .beforeCommit, id, committed⟩], committed)

def mutate (o : BdbOptions) (p : Path) (committed : List Int) : List CrashCheck × List Int :=
  mutateLoop o.puts o.commits 0 p.garbage committed p.choices

/-- `_committed_records` of the one `Test` after some paths. -/
def committedAfter (o : BdbOptions) (paths : List Path) : List Int :=
  paths.foldl (fun committed p => (mutate o p committed).2) []

section
variable (o : BdbOptions)

def lookUp (db : Database) (i : Nat) : Except String Unit :=
  match db.get (o.getKey i) with
  | none => .error "berkeleydb get key missing"
  | some data =>
    if data.length ≠ o.datalen then .error "berkeleydb get length diff"
    else if data ≠ o.getData i then .error "berkeleydb get data diff"
    else .ok ()

def visit (committed : List Int) (e : Bytes × Bytes) : Except String Unit :=
  if e.2.length ≠ o.datalen then .error "berkeleydb get length diff"
  else if intOf (e.2.take 4) ∉ committed then .error "new berkeleydb record appeared"
  else if e.2 ≠ o.getData (intOf (e.2.take 4)) then .error "berkeleydb get data diff"
  else .ok ()

def checkHelper (committed : List Int) (db : Database) : Except String Unit :=
  ((List.range committed.length).forM (lookUp o db)).bind fun _ =>
    db.entries.forM (visit o committed)

def check (k : CrashCheck) (db : Database) : Except String Unit :=
  match k.epoch with
  | .beforeCommit => checkHelper o k.committed db
  | .afterCommit => checkHelper o k.committed db
  | .inCommit =>
    match checkHelper o k.committed db with
    | .ok _ => .ok ()
    | .error _ => checkHelper o (k.committed ++ [k.id]) db

/-- The database holds the records with numbers below the given one, and no others. -/
def HoldsRecords (db : Database) (n : Nat) : Prop :=
  ∀ key data, db.get key = some data ↔ ∃ id < n, key = o.getKey id ∧ data = o.getData id

/-- What atomic transactions allow a recovered database to hold. -/
def Allowed (k : CrashCheck) (db : Database) : Prop :=
  match k.epoch with
  | .beforeCommit => HoldsRecords o db (k.txn * o.puts)
  | .inCommit => HoldsRecords o db (k.txn * o.puts) ∨ HoldsRecords o db ((k.txn + 1) * o.puts)
  | .afterCommit => HoldsRecords o db ((k.txn + 1) * o.puts)

/-- The check raises no error exactly for what is allowed. -/
def Enforces (k : CrashCheck) (db : Database) : Prop :=
  check o k db = .ok () ↔ Allowed o k db

def Whole (db : Database) : Prop :=
  ∀ e ∈ db.entries, ∃ id, e = (o.getKey id, o.getData id)

/-- The condition for all databases, with the numbers that earlier paths have noted. -/
def Strict (old : List Int) (k : CrashCheck) : Prop :=
  old = [] ∧ k.txn = 0 ∧
    match k.epoch with
    | .beforeCommit => True
    | .inCommit => o.puts = 0 ∧ k.id ≠ 0
    | .afterCommit => o.puts = 0

/-- The condition for databases of whole records. -/
def Single (old : List Int) (k : CrashCheck) : Prop :=
  Strict o old k ∨ o.puts = 1 ∧
    match k.epoch with
    | .beforeCommit => old = []
    | .inCommit => old = []
    | .afterCommit => old = [0] ∧ k.txn = 0

def Accepts (committed : List Int) (db : Database) : Prop :=
  (∀ i < committed.length, db.get (o.getKey i) = some (o.getData i)) ∧
    ∀ e ∈ db.entries, ∃ id ∈ committed, e.2 = o.getData id

end

theorem forM_ok_iff {β : Type} {f : β → Except String Unit} {l : List β} :
    l.forM f = .ok () ↔ ∀ b ∈ l, f b = .ok () := by
  induction l with
  | nil => simp [pure, Except.pure]
  | cons b rest ih =>
    rw [List.forM_eq_forM] at ih ⊢
    rw [List.forM_cons, List.forall_mem_cons, ← ih]
    cases f b <;> simp [bind, Except.bind]

theorem Database.get_eq_some_iff {db : Database} {key data : Bytes} :
    db.get key = some data ↔ (key, data) ∈ db.entries := by
  obtain ⟨entries, hNodup⟩ := db
  simp only [Database.get]
  induction entries with
  | nil => simp
  | cons e rest ih =>
    rw [List.map_cons, List.nodup_cons] at hNodup
    rw [List.find?_cons, List.mem_cons]
    by_cases hKey : e.1 = key
    · subst hKey
      have hAbsent : (e.1, data) ∉ rest := fun hMem => hNodup.1 (List.mem_map.mpr ⟨_, hMem, rfl⟩)
      simp [hAbsent, Prod.ext_iff, eq_comm]
    · simp only [hKey, decide_false]
      rw [ih hNodup.2]
      simp [Prod.ext_iff, Ne.symm hKey]

theorem take_setString (id : Int) {len : Nat} (hLen : 4 ≤ len) :
    (setString id len).take 4 = intBytes id := by
  obtain ⟨n, hn⟩ : ∃ n, len / 4 = n + 1 := ⟨len / 4 - 1, by omega⟩
  rw [setString, hn, List.replicate_succ, List.flatten_cons, List.append_assoc]
  exact List.take_left' (Driver.length_intBytes id)

theorem length_setString (id : Int) (len : Nat) : (setString id len).length = len := by
  simp only [setString, List.length_append, List.length_flatten, List.map_replicate,
    List.sum_replicate, List.length_take, Driver.length_intBytes, smul_eq_mul]
  omega

theorem setString_injective {a b : Int} {len : Nat} (hLen : 4 ≤ len) (ha : IsInt a) (hb : IsInt b)
    (h : setString a len = setString b len) : a = b := by
  have hBytes : intBytes a = intBytes b := by
    rw [← take_setString a hLen, h, take_setString b hLen]
  rw [← Driver.intOf_intBytes ha.1 ha.2, hBytes, Driver.intOf_intBytes hb.1 hb.2]

section
variable {o : BdbOptions} {db : Database} {committed : List Int}

theorem getKey_injective {a b : Int} (ha : IsInt a) (hb : IsInt b) (h : o.getKey a = o.getKey b) :
    a = b :=
  setString_injective o.keylen_ge ha hb h

theorem getData_injective {a b : Int} (ha : IsInt a) (hb : IsInt b)
    (h : o.getData a = o.getData b) : a = b :=
  setString_injective o.four_le_datalen ha hb h

theorem lookUp_ok_iff {i : Nat} :
    lookUp o db i = .ok () ↔ db.get (o.getKey i) = some (o.getData i) := by
  unfold lookUp
  cases db.get (o.getKey i) with
  | none => simp
  | some data =>
    simp only [Option.some.injEq]
    constructor
    · intro hOk
      split_ifs at hOk with _ hData
      · exact not_not.mp hData
    · rintro rfl
      have hLength : (o.getData i).length = o.datalen := length_setString _ _
      rw [if_neg (not_not_intro hLength), if_neg (not_not_intro rfl)]

theorem visit_ok_iff (hInts : ∀ id ∈ committed, IsInt id) {e : Bytes × Bytes} :
    visit o committed e = .ok () ↔ ∃ id ∈ committed, e.2 = o.getData id := by
  unfold visit
  constructor
  · intro hOk
    split_ifs at hOk with _ hMem hData
    · exact ⟨_, hMem, not_not.mp hData⟩
  · rintro ⟨id, hMem, hData⟩
    have hId : intOf (e.2.take 4) = id := by
      rw [hData, BdbOptions.getData, take_setString id o.four_le_datalen,
        Driver.intOf_intBytes (hInts id hMem).1 (hInts id hMem).2]
    have hLength : e.2.length = o.datalen := by
      rw [hData]
      exact length_setString _ _
    rw [hId, if_neg (not_not_intro hLength), if_neg (not_not_intro hMem),
      if_neg (not_not_intro hData)]

theorem checkHelper_ok_iff (hInts : ∀ id ∈ committed, IsInt id) :
    checkHelper o committed db = .ok () ↔ Accepts o committed db := by
  have hIndex : (List.range committed.length).forM (lookUp o db) = .ok () ↔
      ∀ i < committed.length, db.get (o.getKey i) = some (o.getData i) := by
    simp only [forM_ok_iff, List.mem_range, lookUp_ok_iff]
  have hCursor : db.entries.forM (visit o committed) = .ok () ↔
      ∀ e ∈ db.entries, ∃ id ∈ committed, e.2 = o.getData id := by
    simp only [forM_ok_iff, visit_ok_iff hInts]
  rw [checkHelper, Accepts, ← hIndex, ← hCursor]
  cases (List.range committed.length).forM (lookUp o db) <;> simp [Except.bind]

def lastId (o : BdbOptions) (garbage : Int) (i : Nat) : Int :=
  if o.puts = 0 then garbage else ((i * o.puts + (o.puts - 1) : Nat) : Int)

def noted (o : BdbOptions) (garbage : Int) (i : Nat) : List Int :=
  (List.range i).map (lastId o garbage)

theorem noted_succ (o : BdbOptions) (garbage : Int) (i : Nat) :
    noted o garbage (i + 1) = noted o garbage i ++ [lastId o garbage i] := by
  simp [noted, List.range_succ]

theorem putLoop_eq {garbage id : Int} (i : Nat) (hId : o.puts = 0 → id = garbage) :
    putLoop o.puts i id = lastId o garbage i := by
  unfold putLoop lastId
  cases hPuts : o.puts with
  | zero => exact hId hPuts
  | succ puts => simp [List.range_succ]

/-- What a loop can do, from the numbers noted before and in the first transactions. -/
theorem mutateLoop_spec (old : List Int) (garbage : Int) {id : Int}
    (hId : o.puts = 0 → id = garbage) (n i : Nat) (choices : List Bool) :
    (∀ k ∈ (mutateLoop o.puts n i id (old ++ noted o garbage i) choices).1,
      k.txn < i + n ∧ k.id = lastId o garbage k.txn ∧ k.committed = old ++ noted o garbage k.txn) ∧
    ∃ m ≤ i + n, (mutateLoop o.puts n i id (old ++ noted o garbage i) choices).2 =
      old ++ noted o garbage m := by
  induction n generalizing i id choices with
  | zero => exact ⟨fun k hk => absurd hk List.not_mem_nil, i, le_rfl, rfl⟩
  | succ n ih =>
    have hHere : i < i + (n + 1) := by omega
    simp only [mutateLoop, putLoop_eq i hId, List.append_assoc, ← noted_succ]
    split
    · have hLast : o.puts = 0 → lastId o garbage i = garbage := fun hPuts => by
        rw [lastId, if_pos hPuts]
      rw [show i + (n + 1) = i + 1 + n by omega]
      exact ih hLast (i + 1) _
    · refine ⟨?_, i, hHere.le, rfl⟩
      simp
    · refine ⟨?_, i, hHere.le, rfl⟩
      simp

theorem mem_mutate {p : Path} {old : List Int} {k : CrashCheck} (hk : k ∈ (mutate o p old).1) :
    k.txn < o.commits ∧ k.id = lastId o p.garbage k.txn ∧
      k.committed = old ++ noted o p.garbage k.txn := by
  have h := (mutateLoop_spec (o := o) old p.garbage (fun _ => rfl) o.commits 0 p.choices).1 k
  rw [Nat.zero_add, noted, List.range_zero, List.map_nil, List.append_nil] at h
  exact h hk

theorem mutate_snd (o : BdbOptions) (p : Path) (old : List Int) :
    ∃ m ≤ o.commits, (mutate o p old).2 = old ++ noted o p.garbage m := by
  have h := (mutateLoop_spec (o := o) old p.garbage (fun _ => rfl) o.commits 0 p.choices).2
  rwa [Nat.zero_add, noted, List.range_zero, List.map_nil, List.append_nil] at h

theorem isInt_of_lt {n m : Nat} (hn : n < m) (hm : m ≤ 2147483648) : IsInt n := by
  constructor <;> omega

theorem accepts_nil_iff : Accepts o [] db ↔ HoldsRecords o db 0 := by
  have hEmpty : HoldsRecords o db 0 ↔ db.entries = [] := by
    simp [HoldsRecords, Database.get_eq_some_iff, List.eq_nil_iff_forall_not_mem]
  rw [hEmpty, Accepts]
  simp [List.eq_nil_iff_forall_not_mem]

theorem Accepts.mem (hInts : ∀ id ∈ committed, IsInt id) (hAccepts : Accepts o committed db)
    {n : Nat} (hn : n < 2147483648) (hGet : db.get (o.getKey n) = some (o.getData n)) :
    (n : Int) ∈ committed := by
  obtain ⟨id, hMem, hData⟩ := hAccepts.2 _ (Database.get_eq_some_iff.mp hGet)
  obtain rfl := getData_injective (isInt_of_lt hn le_rfl) (hInts id hMem) hData
  exact hMem

theorem Accepts.zero_mem (hInts : ∀ id ∈ committed, IsInt id) (hAccepts : Accepts o committed db)
    (hNoted : committed ≠ []) : 0 ∈ committed :=
  hAccepts.mem (n := 0) hInts (by decide) (hAccepts.1 0 (List.length_pos_of_ne_nil hNoted))

/-- A record that is not there is looked up. -/
theorem not_accepts_of_length {n : Nat} (hn : n < 2147483648) (hHolds : HoldsRecords o db n)
    (hLength : n < committed.length) : ¬Accepts o committed db := by
  intro hAccepts
  obtain ⟨i, hi, hKey, _⟩ := (hHolds _ _).mp (hAccepts.1 n hLength)
  have hEq := getKey_injective (isInt_of_lt hn le_rfl) (isInt_of_lt hi hn.le) hKey
  omega

/-- A record that is there has not been noted. -/
theorem not_accepts_of_notMem (hInts : ∀ id ∈ committed, IsInt id) {m n : Nat}
    (hn : n < 2147483648) (hLt : n < m) (hHolds : HoldsRecords o db m)
    (hMem : (n : Int) ∉ committed) : ¬Accepts o committed db := fun hAccepts =>
  hMem (hAccepts.mem hInts hn ((hHolds _ _).mpr ⟨n, hLt, rfl, rfl⟩))

def firstIds (n : Nat) : List Int := (List.range n).map fun i : Nat => (i : Int)

theorem firstIds_succ (n : Nat) : firstIds (n + 1) = firstIds n ++ [(n : Int)] := by
  simp [firstIds, List.range_succ]

theorem mem_firstIds {n : Nat} {id : Int} : id ∈ firstIds n ↔ ∃ i < n, (i : Int) = id := by
  simp [firstIds]

theorem HoldsRecords.accepts {n : Nat} (hHolds : HoldsRecords o db n) :
    Accepts o (firstIds n) db := by
  constructor
  · intro i hi
    rw [firstIds, List.length_map, List.length_range] at hi
    exact (hHolds _ _).mpr ⟨i, hi, rfl, rfl⟩
  · intro e he
    obtain ⟨id, hLt, _, hData⟩ := (hHolds e.1 e.2).mp (Database.get_eq_some_iff.mpr he)
    exact ⟨id, mem_firstIds.mpr ⟨id, hLt, rfl⟩, hData⟩

theorem Accepts.holdsRecords {n : Nat} (hAccepts : Accepts o (firstIds n) db)
    (hWhole : Whole o db) : HoldsRecords o db n := by
  intro key data
  constructor
  · intro hGet
    have hMem := Database.get_eq_some_iff.mp hGet
    obtain ⟨id, hId, hData⟩ := hAccepts.2 _ hMem
    obtain ⟨i, hLt, rfl⟩ := mem_firstIds.mp hId
    obtain ⟨id', hEntry⟩ := hWhole _ hMem
    obtain ⟨rfl, rfl⟩ := Prod.mk.inj hEntry
    have hBytes : intBytes id' = intBytes i := by
      rw [← take_setString id' o.four_le_datalen, ← take_setString i o.four_le_datalen]
      exact congrArg (List.take 4) hData
    exact ⟨i, hLt, by rw [BdbOptions.getKey, setString, hBytes]; rfl, hData⟩
  · rintro ⟨i, hLt, rfl, rfl⟩
    exact hAccepts.1 i (by simpa [firstIds] using hLt)

def recorded (o : BdbOptions) (n : Nat) (hn : n ≤ 2147483648) : Database where
  entries := (List.range n).map fun i : Nat => (o.getKey i, o.getData i)
  nodup := by
    rw [List.map_map]
    refine List.Nodup.map_on (fun i hi j hj hEq => ?_) List.nodup_range
    have hi' := isInt_of_lt (List.mem_range.mp hi) hn
    have hj' := isInt_of_lt (List.mem_range.mp hj) hn
    exact Int.ofNat.inj (getKey_injective hi' hj' hEq)

theorem whole_recorded {n : Nat} (hn : n ≤ 2147483648) : Whole o (recorded o n hn) := by
  intro e he
  obtain ⟨i, _, rfl⟩ := List.mem_map.mp he
  exact ⟨i, rfl⟩

theorem holdsRecords_recorded {n : Nat} (hn : n ≤ 2147483648) :
    HoldsRecords o (recorded o n hn) n := by
  intro key data
  rw [Database.get_eq_some_iff]
  simp only [recorded, List.mem_map, List.mem_range, Prod.mk.injEq]
  constructor
  · rintro ⟨i, hi, rfl, rfl⟩
    exact ⟨i, hi, rfl, rfl⟩
  · rintro ⟨i, hi, rfl, rfl⟩
    exact ⟨i, hi, rfl, rfl⟩

theorem HoldsRecords.le {m n : Nat} (hn : n ≤ 2147483648) (hm : m ≤ 2147483648)
    (hHolds : HoldsRecords o db m) (hHolds' : HoldsRecords o db n) : m ≤ n := by
  by_contra hLt
  obtain ⟨i, hi, hKey, _⟩ := (hHolds' _ _).mp ((hHolds _ _).mpr ⟨n, by omega, rfl, rfl⟩)
  have hEq := getKey_injective (isInt_of_lt (by omega : n < m) hm) (isInt_of_lt hi hn) hKey
  omega

def strayed (o : BdbOptions) (n : Nat) (hn : n ≤ 2147483648) : Database where
  entries := ([], o.getData 0) :: (recorded o n hn).entries
  nodup := by
    rw [List.map_cons, List.nodup_cons]
    refine ⟨fun hMem => ?_, (recorded o n hn).nodup⟩
    obtain ⟨e, he, hEmpty⟩ := List.mem_map.mp hMem
    obtain ⟨i, rfl⟩ := whole_recorded hn e he
    have hNil : o.getKey i = [] := hEmpty
    have hLength : (o.getKey i).length = o.keylen := length_setString _ _
    have hPos := o.keylen_ge
    rw [hNil, List.length_nil] at hLength
    omega

theorem accepts_strayed {n : Nat} (hn : n ≤ 2147483648) (hPos : 0 < n) :
    Accepts o (firstIds n) (strayed o n hn) := by
  have hRecorded := (holdsRecords_recorded (o := o) hn).accepts
  constructor
  · intro i hi
    have hMem := Database.get_eq_some_iff.mp (hRecorded.1 i hi)
    exact Database.get_eq_some_iff.mpr (List.mem_cons_of_mem _ hMem)
  · refine List.forall_mem_cons.mpr ⟨?_, hRecorded.2⟩
    exact ⟨0, mem_firstIds.mpr ⟨0, hPos, rfl⟩, rfl⟩

theorem not_holdsRecords_strayed {n : Nat} (hn : n ≤ 2147483648) (m : Nat) :
    ¬HoldsRecords o (strayed o n hn) m := by
  intro hHolds
  have hMem : (([], o.getData 0) : Bytes × Bytes) ∈ (strayed o n hn).entries :=
    List.mem_cons_self
  obtain ⟨i, _, hKey, _⟩ := (hHolds _ _).mp (Database.get_eq_some_iff.mpr hMem)
  have hLength : (o.getKey i).length = o.keylen := length_setString _ _
  have hPos := o.keylen_ge
  rw [← hKey, List.length_nil] at hLength
  omega

theorem noted_single (hPuts : o.puts = 1) (garbage : Int) (i : Nat) :
    noted o garbage i = firstIds i := by
  simp [noted, firstIds, lastId, hPuts]

theorem isInt_noted {garbage : Int} (hGarbage : IsInt garbage) {i : Nat} (hi : i ≤ o.commits) :
    ∀ id ∈ noted o garbage i, IsInt id := by
  intro id hId
  obtain ⟨j, hj, rfl⟩ := List.mem_map.mp hId
  have hLt := List.mem_range.mp hj
  rw [lastId]
  split_ifs with hPuts
  · exact hGarbage
  · have hLe : (j + 1) * o.puts ≤ o.commits * o.puts := Nat.mul_le_mul_right _ (by omega)
    refine isInt_of_lt ?_ (hLe.trans o.isInt)
    rw [Nat.add_mul]
    omega

theorem zero_notMem_noted (hPuts : 2 ≤ o.puts) (garbage : Int) (i : Nat) :
    0 ∉ noted o garbage i := by
  intro hZero
  obtain ⟨j, _, hEq⟩ := List.mem_map.mp hZero
  rw [lastId, if_neg (by omega)] at hEq
  omega

/-- What all paths keep of the numbers noted. With one record in a transaction the first number
is that of the first record, with more of them it is never noted. -/
structure OldNumbers (o : BdbOptions) (old : List Int) : Prop where
  isInt : ∀ id ∈ old, IsInt id
  single : o.puts = 1 → old = [] ∨ ∃ rest, old = 0 :: rest
  many : 2 ≤ o.puts → 0 ∉ old

theorem OldNumbers.mutate {old : List Int} (h : OldNumbers o old) (p : Path) :
    OldNumbers o (mutate o p old).2 := by
  obtain ⟨m, hm, hNoted⟩ := mutate_snd o p old
  rw [hNoted]
  constructor
  · exact List.forall_mem_append.mpr ⟨h.isInt, isInt_noted p.isInt hm⟩
  · intro hPuts
    rw [noted_single hPuts]
    obtain rfl | ⟨rest, rfl⟩ := h.single hPuts
    · cases m with
      | zero => exact .inl rfl
      | succ m => exact .inr ⟨_, by rw [firstIds, List.range_succ_eq_map]; rfl⟩
    · exact .inr ⟨_, rfl⟩
  · intro hPuts
    simp [h.many hPuts, zero_notMem_noted hPuts]

theorem oldNumbers_committedAfter (o : BdbOptions) (paths : List Path) :
    OldNumbers o (committedAfter o paths) := by
  have hNil : OldNumbers o [] := ⟨by simp, fun _ => .inl rfl, by simp⟩
  exact List.foldlRecOn paths _ hNil fun _ h p _ => h.mutate p

section
variable {old : List Int} (hOld : OldNumbers o old) {p : Path} {k : CrashCheck}
  (hk : k ∈ (mutate o p old).1)
include hk

theorem committed_eq_nil_iff : k.committed = [] ↔ old = [] ∧ k.txn = 0 := by
  rw [(mem_mutate hk).2.2, List.append_eq_nil_iff, noted, List.map_eq_nil_iff, List.range_eq_nil]

theorem committed_single (hPuts : o.puts = 1) : k.committed = old ++ firstIds k.txn := by
  rw [(mem_mutate hk).2.2, noted_single hPuts]

theorem id_single (hPuts : o.puts = 1) : k.id = k.txn := by
  rw [(mem_mutate hk).2.1, lastId, hPuts]
  simp

include hOld

theorem isInt_committed : ∀ id ∈ k.committed ++ [k.id], IsInt id := by
  obtain ⟨hTxn, hId, hCommitted⟩ := mem_mutate hk
  rw [hId, hCommitted, List.append_assoc, ← noted_succ]
  exact List.forall_mem_append.mpr ⟨hOld.isInt, isInt_noted p.isInt hTxn⟩

theorem zero_notMem_committed (hPuts : 2 ≤ o.puts) : 0 ∉ k.committed ++ [k.id] := by
  obtain ⟨_, hId, hCommitted⟩ := mem_mutate hk
  rw [hId, hCommitted, List.append_assoc, ← noted_succ]
  simp [hOld.many hPuts, zero_notMem_noted hPuts]

theorem check_ok_iff :
    check o k db = .ok () ↔ Accepts o k.committed db ∨
      (k.epoch = .inCommit ∧ Accepts o (k.committed ++ [k.id]) db) := by
  have hInts := isInt_committed hOld hk
  have hAccepted : checkHelper o k.committed db = .ok () ↔ _ :=
    checkHelper_ok_iff fun id hId => hInts id (List.mem_append_left _ hId)
  have hNew : checkHelper o (k.committed ++ [k.id]) db = .ok () ↔ _ := checkHelper_ok_iff hInts
  rw [check, ← hAccepted, ← hNew]
  cases k.epoch with
  | beforeCommit => simp
  | afterCommit => simp
  | inCommit => cases checkHelper o k.committed db <;> simp

theorem enforces_of_strict (hStrict : Strict o old k) (db : Database) : Enforces o k db := by
  obtain ⟨hFirst, hTxn, hEpoch⟩ := hStrict
  have hNone := (committed_eq_nil_iff hk).mpr ⟨hFirst, hTxn⟩
  rw [Enforces, check_ok_iff hOld hk, Allowed, hNone, accepts_nil_iff]
  cases hCase : k.epoch with
  | beforeCommit => simp [hTxn]
  | afterCommit =>
    rw [hCase] at hEpoch
    simp [show o.puts = 0 from hEpoch]
  | inCommit =>
    rw [hCase] at hEpoch
    obtain ⟨hPuts, hId⟩ := hEpoch
    have hGarbage : ¬Accepts o [k.id] db := by
      intro hAccepts
      have hInts := isInt_committed hOld hk
      rw [hNone, List.nil_append] at hInts
      have hZero := hAccepts.zero_mem hInts (by simp)
      exact hId (by simpa [eq_comm] using hZero)
    simp [hPuts, hGarbage]

theorem enforces_of_single (hSingle : Single o old k) (hWhole : Whole o db) : Enforces o k db := by
  obtain hStrict | ⟨hPuts, hEpoch⟩ := hSingle
  · exact enforces_of_strict hOld hk hStrict db
  have hIff : ∀ n, Accepts o (firstIds n) db ↔ HoldsRecords o db n := fun n =>
    ⟨fun hAccepts => hAccepts.holdsRecords hWhole, HoldsRecords.accepts⟩
  have hNext : firstIds k.txn ++ [k.id] = firstIds (k.txn + 1) := by
    rw [id_single hk hPuts, firstIds_succ]
  rw [Enforces, check_ok_iff hOld hk, Allowed, committed_single hk hPuts, hPuts]
  cases hCase : k.epoch with
  | beforeCommit =>
    rw [hCase] at hEpoch
    simp [show old = [] from hEpoch, hIff]
  | inCommit =>
    rw [hCase] at hEpoch
    simp [show old = [] from hEpoch, hNext, hIff]
  | afterCommit =>
    rw [hCase] at hEpoch
    obtain ⟨rfl, hTxn⟩ := hEpoch
    have hOne : ([0] : List Int) ++ firstIds 0 = firstIds 1 := rfl
    simp [hTxn, hOne, hIff]

/-- With more than one record in a transaction no check that has to accept a record does. -/
theorem not_accepts_of_many (hPuts : 2 ≤ o.puts) {n : Nat} (hPos : 0 < n)
    (hHolds : HoldsRecords o db n) {committed : List Int}
    (hPart : committed ⊆ k.committed ++ [k.id]) : ¬Accepts o committed db := by
  apply not_accepts_of_notMem (fun id hId => isInt_committed hOld hk id (hPart hId)) (by decide)
    hPos hHolds
  exact fun hZero => zero_notMem_committed hOld hk hPuts (hPart hZero)

theorem exists_of_not_accepts {n : Nat} (hn : n ≤ 2147483648)
    (hAllowed : HoldsRecords o (recorded o n hn) n → Allowed o k (recorded o n hn))
    (hNot : HoldsRecords o (recorded o n hn) n → ¬Accepts o k.committed (recorded o n hn))
    (hNext : k.epoch = .inCommit → HoldsRecords o (recorded o n hn) n →
      ¬Accepts o (k.committed ++ [k.id]) (recorded o n hn)) :
    ∃ db, Whole o db ∧ ¬Enforces o k db := by
  have hHolds := holdsRecords_recorded (o := o) hn
  refine ⟨recorded o n hn, whole_recorded hn, fun hEnforces => ?_⟩
  rcases (check_ok_iff hOld hk).mp (hEnforces.mpr (hAllowed hHolds)) with h | ⟨hEpoch, h⟩
  · exact hNot hHolds h
  · exact hNext hEpoch hHolds h

theorem exists_of_puts_zero (hPuts : o.puts = 0) (hStrict : ¬Strict o old k) :
    ∃ db, Whole o db ∧ ¬Enforces o k db := by
  by_cases hNone : k.committed = []
  · -- the number noted is whatever the variable held, here that of a record never put
    obtain ⟨hFirst, hTxn⟩ := (committed_eq_nil_iff hk).mp hNone
    obtain ⟨hEpoch, hId⟩ : k.epoch = .inCommit ∧ k.id = 0 := by
      simp only [Strict, hFirst, hTxn, hPuts, true_and] at hStrict
      cases hCase : k.epoch <;> simp_all
    have hOne : HoldsRecords o (recorded o 1 (by decide)) 1 := holdsRecords_recorded _
    refine ⟨recorded o 1 (by decide), whole_recorded _, fun hEnforces => ?_⟩
    have hOk : check o k (recorded o 1 (by decide)) = .ok () := by
      refine (check_ok_iff hOld hk).mpr (.inr ⟨hEpoch, ?_⟩)
      rw [hNone, hId]
      exact hOne.accepts
    have hAllowed := hEnforces.mp hOk
    simp only [Allowed, hEpoch, hPuts, Nat.mul_zero, or_self] at hAllowed
    exact absurd (hOne.le (Nat.zero_le _) (by decide) hAllowed) (by decide)
  · have hPos := List.length_pos_of_ne_nil hNone
    apply exists_of_not_accepts hOld hk (Nat.zero_le _)
    · intro hHolds
      unfold Allowed
      cases k.epoch <;> simp [hPuts, hHolds]
    · exact fun hHolds => not_accepts_of_length (by decide) hHolds hPos
    · exact fun _ hHolds => not_accepts_of_length (by decide) hHolds (by simp)

theorem exists_of_puts_one (hPuts : o.puts = 1) (hSingle : ¬Single o old k) :
    ∃ db, Whole o db ∧ ¬Enforces o k db := by
  have hTxn := (mem_mutate hk).1
  have hInt := o.commits_lt
  have hCommitted := committed_single hk hPuts
  have hLength : k.committed.length = old.length + k.txn := by
    rw [hCommitted, List.length_append, firstIds, List.length_map, List.length_range]
  have hNoted : ∀ epoch ≠ Epoch.afterCommit, k.epoch = epoch → old ≠ [] := by
    rintro epoch hNe rfl hNil
    refine hSingle (.inr ⟨hPuts, ?_⟩)
    cases hCase : k.epoch <;> simp_all
  by_cases hEpoch : k.epoch = .afterCommit
  · have hRecord : k.txn + 1 ≤ 2147483648 := by omega
    apply exists_of_not_accepts hOld hk hRecord
    · intro hHolds
      simpa only [Allowed, hEpoch, hPuts, Nat.mul_one] using hHolds
    · intro hHolds
      by_cases hMany : old.length ≤ 1
      · -- the last record is not among those noted
        apply not_accepts_of_notMem (fun id hId => isInt_committed hOld hk id
          (List.mem_append_left _ hId)) (by omega) (Nat.lt_succ_self k.txn) hHolds
        rw [hCommitted, List.mem_append, mem_firstIds]
        rintro (hMem | ⟨i, hi, hEq⟩)
        · obtain rfl | ⟨rest, rfl⟩ := hOld.single hPuts
          · cases hMem
          · obtain rfl : rest = [] := List.length_eq_zero_iff.mp (by simpa using hMany)
            have hZero : k.txn = 0 := by simpa using hMem
            exact hSingle (.inr ⟨hPuts, by rw [hEpoch]; exact ⟨rfl, hZero⟩⟩)
        · omega
      · exact not_accepts_of_length (by omega) hHolds (by omega)
    · rw [hEpoch]
      rintro ⟨⟩
  · have hPos := List.length_pos_of_ne_nil (hNoted _ hEpoch rfl)
    have hShort : k.txn < k.committed.length := by omega
    have hRecord : k.txn ≤ 2147483648 := by omega
    apply exists_of_not_accepts hOld hk hRecord
    · intro hHolds
      unfold Allowed
      cases hCase : k.epoch <;> simp_all
    · exact fun hHolds => not_accepts_of_length (by omega) hHolds hShort
    · intro _ hHolds
      refine not_accepts_of_length (by omega) hHolds ?_
      rw [List.length_append]
      omega

theorem exists_of_many (hPuts : 2 ≤ o.puts) (hStrict : ¬Strict o old k) :
    ∃ db, Whole o db ∧ ¬Enforces o k db := by
  have hTxn := (mem_mutate hk).1
  have hNext : (k.txn + 1) * o.puts ≤ 2147483648 := (Nat.mul_le_mul_right _ hTxn).trans o.isInt
  have hPos : 0 < (k.txn + 1) * o.puts := Nat.mul_pos (Nat.succ_pos _) (by omega)
  by_cases hEpoch : k.epoch = .beforeCommit
  · have hPrev : k.txn * o.puts ≤ 2147483648 := (Nat.mul_le_mul_right _ (by omega)).trans hNext
    apply exists_of_not_accepts hOld hk hPrev
    · intro hHolds
      rwa [Allowed, hEpoch]
    · intro hHolds hAccepts
      have hNoted : k.committed ≠ [] := by
        intro hNone
        obtain ⟨hFirst, hZero⟩ := (committed_eq_nil_iff hk).mp hNone
        exact hStrict ⟨hFirst, hZero, by rw [hEpoch]; trivial⟩
      have hInts := fun id hId => isInt_committed hOld hk id (List.mem_append_left _ hId)
      exact zero_notMem_committed hOld hk hPuts
        (List.mem_append_left _ (hAccepts.zero_mem hInts hNoted))
    · rw [hEpoch]
      rintro ⟨⟩
  · apply exists_of_not_accepts hOld hk hNext
    · intro hHolds
      unfold Allowed
      cases hCase : k.epoch <;> simp_all
    · exact fun hHolds => not_accepts_of_many hOld hk hPuts hPos hHolds
        (List.subset_append_left _ _)
    · exact fun _ hHolds => not_accepts_of_many hOld hk hPuts hPos hHolds (List.Subset.refl _)

theorem exists_not_enforces (hSingle : ¬Single o old k) : ∃ db, Whole o db ∧ ¬Enforces o k db := by
  have hStrict : ¬Strict o old k := fun h => hSingle (.inl h)
  obtain hNone | hOne | hMany : o.puts = 0 ∨ o.puts = 1 ∨ 2 ≤ o.puts := by omega
  · exact exists_of_puts_zero hOld hk hNone hStrict
  · exact exists_of_puts_one hOld hk hOne hSingle
  · exact exists_of_many hOld hk hMany hStrict

theorem exists_strayed (hStrict : ¬Strict o old k) (hSingle : Single o old k) :
    ∃ db, ¬Enforces o k db := by
  obtain ⟨hPuts, hEpoch⟩ := hSingle.resolve_left hStrict
  have hTxn := (mem_mutate hk).1
  have hInt := o.commits_lt
  have hNever : ∀ n hn, ¬Allowed o k (strayed o n hn) := by
    intro n hn
    unfold Allowed
    cases k.epoch <;> simp [not_holdsRecords_strayed]
  suffices hOk : ∃ n hn, check o k (strayed o n hn) = .ok () by
    obtain ⟨n, hn, hOk⟩ := hOk
    exact ⟨strayed o n hn, fun hEnforces => hNever n hn (hEnforces.mp hOk)⟩
  have hCommitted := committed_single hk hPuts
  simp only [check_ok_iff hOld hk]
  cases hCase : k.epoch with
  | beforeCommit =>
    rw [hCase] at hEpoch
    obtain rfl : old = [] := hEpoch
    have hPos : 0 < k.txn := by
      refine Nat.pos_of_ne_zero fun hZero => hStrict ⟨rfl, hZero, ?_⟩
      rw [hCase]
      trivial
    rw [List.nil_append] at hCommitted
    exact ⟨k.txn, by omega, .inl (hCommitted ▸ accepts_strayed _ hPos)⟩
  | inCommit =>
    rw [hCase] at hEpoch
    obtain rfl : old = [] := hEpoch
    have hNext : k.committed ++ [k.id] = firstIds (k.txn + 1) := by
      rw [hCommitted, List.nil_append, id_single hk hPuts, firstIds_succ]
    exact ⟨k.txn + 1, by omega, .inr ⟨rfl, hNext ▸ accepts_strayed _ (Nat.succ_pos _)⟩⟩
  | afterCommit =>
    rw [hCase] at hEpoch
    obtain ⟨rfl, hZero⟩ := hEpoch
    have hOne : k.committed = firstIds 1 := by
      rw [hCommitted, hZero]
      rfl
    exact ⟨1, by decide, .inl (hOne ▸ accepts_strayed _ one_pos)⟩

end

/-- After any paths, the check enforces atomicity for databases of any records, and for databases
of whole records, exactly under the conditions. -/
theorem check_enforces_iff (o : BdbOptions) (earlier : List Path) (p : Path) (k : CrashCheck)
    (hk : k ∈ (mutate o p (committedAfter o earlier)).1) :
    ((∀ db, Enforces o k db) ↔ Strict o (committedAfter o earlier) k) ∧
      ((∀ db, Whole o db → Enforces o k db) ↔ Single o (committedAfter o earlier) k) := by
  have hOld := oldNumbers_committedAfter o earlier
  constructor
  · constructor
    · intro hEnforces
      by_contra hStrict
      by_cases hSingle : Single o (committedAfter o earlier) k
      · obtain ⟨db, hNot⟩ := exists_strayed hOld hk hStrict hSingle
        exact hNot (hEnforces db)
      · obtain ⟨db, _, hNot⟩ := exists_not_enforces hOld hk hSingle
        exact hNot (hEnforces db)
    · exact fun hStrict db => enforces_of_strict hOld hk hStrict db
  · constructor
    · intro hEnforces
      by_contra hSingle
      obtain ⟨db, hWhole, hNot⟩ := exists_not_enforces hOld hk hSingle
      exact hNot (hEnforces db hWhole)
    · exact fun hSingle db hWhole => enforces_of_single hOld hk hSingle hWhole

end

def defaultOptions : BdbOptions where
  keylen := 4096
  datalen := 8192
  puts := 1
  commits := 1
  keylen_ge := by decide
  datalen_ge := by decide
  commits_lt := by decide
  isInt := by decide

theorem check_enforces_iff_default :
    ⟨0, .beforeCommit, 0, []⟩ ∈
        (mutate defaultOptions ⟨7, [], by decide⟩
          (committedAfter defaultOptions [⟨7, [true], by decide⟩])).1 ∧
      ∀ db, Enforces defaultOptions ⟨0, .beforeCommit, 0, []⟩ db := by
  have hMem : ⟨0, .beforeCommit, 0, []⟩ ∈
      (mutate defaultOptions ⟨7, [], by decide⟩
        (committedAfter defaultOptions [⟨7, [true], by decide⟩])).1 := by decide
  exact ⟨hMem, (check_enforces_iff defaultOptions _ _ _ hMem).1.mpr ⟨rfl, rfl, trivial⟩⟩

def shortRecords (puts commits : Nat) (hLt : commits < 2147483648)
    (hInt : commits * puts ≤ 2147483648) : BdbOptions where
  keylen := 4
  datalen := 4
  puts := puts
  commits := commits
  keylen_ge := le_rfl
  datalen_ge := le_rfl
  commits_lt := hLt
  isInt := hInt

def twoPuts : BdbOptions := shortRecords 2 1 (by decide) (by decide)

/-- The whole transaction is there and the check reports an error. -/
theorem check_rejects_transaction :
    ⟨0, .inCommit, 1, []⟩ ∈ (mutate twoPuts ⟨7, [true], by decide⟩ []).1 ∧
      Allowed twoPuts ⟨0, .inCommit, 1, []⟩ (recorded twoPuts 2 (by decide)) ∧
      check twoPuts ⟨0, .inCommit, 1, []⟩ (recorded twoPuts 2 (by decide)) =
        .error "new berkeleydb record appeared" :=
  ⟨by decide, .inr (holdsRecords_recorded _), by rfl⟩

-- the second path through the first commit notes its record once more
example :
    let o := shortRecords 1 2 (by decide) (by decide)
    let earlier : List Path := [⟨7, [true, true], by decide⟩]
    ⟨1, .inCommit, 1, [0, 0]⟩ ∈
        (mutate o ⟨7, [true, true, true], by decide⟩ (committedAfter o earlier)).1 ∧
      check o ⟨1, .inCommit, 1, [0, 0]⟩ (recorded o 1 (by decide)) =
        .error "berkeleydb get key missing" :=
  ⟨by decide, by rfl⟩

end Explode.Check
