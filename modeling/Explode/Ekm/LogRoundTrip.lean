import Explode.Crash.LogMgr
import Explode.Ekm.Hooks

/-!
# What is logged is parsed

The bytes of a record are read back as the record by the parser for its
category, unless the data that the record announces was dropped because the
pointer to it was not valid.
-/

namespace Explode.Ekm

open ByteStream Crash LogBuf

/-- The sizes fit an `int`, the bytes behind a pointer are as many as the size says, and there is a
parser for the category of an application record. -/
def Hook.WellFormed (appCats : List UInt32) : Hook → Prop
  | .app gr => catOf gr.type ∈ appCats ∧ gr.data.bytes.length < 2147483648
  | .bh _ _ h => h.data.bytes.length = h.size ∧ h.size < 2147483648
  | .bio _ state b => b.size < 2147483648 ∧
      (state.type.hasData → (b.segments.flatMap Pointer.bytes).length = b.size)
  | .req _ _ r => r.buffer.bytes.length = r.currentNrSectors * 512 ∧
      r.currentNrSectors * 512 < 2147483648
  | .enter .. | .exit .. | .copyLog _ => False

/-- A request or an application record that is logged with data has a valid pointer to it. -/
def Hook.KeepsData : Hook → Prop
  | .app gr => gr.data.bytes ≠ [] → gr.data.invalid = false
  | .req t state r => r.dev ∈ t.devices → r.rw &&& state.dir ≠ 0 → state.type.hasData →
      r.buffer.bytes ≠ [] → r.buffer.invalid = false
  | .bh .. | .bio .. | .enter .. | .exit .. | .copyLog _ => True

instance (appCats : List UInt32) : (h : Hook) → Decidable (h.WellFormed appCats)
  | .app gr => inferInstanceAs (Decidable (catOf gr.type ∈ appCats ∧ _ < _))
  | .bh _ _ h => inferInstanceAs (Decidable (h.data.bytes.length = h.size ∧ _ < _))
  | .bio _ state b => inferInstanceAs (Decidable (b.size < _ ∧ (state.type.hasData → _ = b.size)))
  | .req _ _ r => inferInstanceAs (Decidable (r.buffer.bytes.length = _ ∧ _ < _))
  | .enter .. => inferInstanceAs (Decidable False)
  | .exit .. => inferInstanceAs (Decidable False)
  | .copyLog _ => inferInstanceAs (Decidable False)

instance : (h : Hook) → Decidable h.KeepsData
  | .app gr => inferInstanceAs (Decidable (gr.data.bytes ≠ [] → gr.data.invalid = false))
  | .req t state r => inferInstanceAs (Decidable (r.dev ∈ t.devices → r.rw &&& state.dir ≠ 0 →
      state.type.hasData → r.buffer.bytes ≠ [] → r.buffer.invalid = false))
  | .bh .. => inferInstanceAs (Decidable True)
  | .bio .. => inferInstanceAs (Decidable True)
  | .enter .. => inferInstanceAs (Decidable True)
  | .exit .. => inferInstanceAs (Decidable True)
  | .copyLog _ => inferInstanceAs (Decidable True)

def ReadBack (appCats : List UInt32) (r : Record) (bytes : Bytes) : Prop :=
  catOf r.type = linuxCat ∧ Reads (readLinuxBlockRec r.type) bytes r ∨
    catOf r.type ∈ appCats ∧ Reads (readAppRec r.type) bytes r

/-- The bytes that were added to the log are those of the records that were added to the history. -/
structure Logs (appCats : List UInt32) (e e' : Ekm) (records : List Record)
    (words : List Bytes) : Prop where
  wellFormed : e'.buf.WellFormed
  log : e'.log = e.log ++ records
  contents : e'.buf.contents =
    e.buf.contents ++ (records.zipWith (fun r bytes => word r.type ++ bytes) words).flatten
  readBack : List.Forall₂ (ReadBack appCats) records words

section
variable {appCats : List UInt32} {e e' : Ekm}

theorem Logs.refl (h : e.buf.WellFormed) : Logs appCats e e [] [] :=
  ⟨h, by simp, by simp, .nil⟩

theorem Logs.trans {e'' : Ekm} {records records' : List Record} {words words' : List Bytes}
    (h : Logs appCats e e' records words) (h' : Logs appCats e' e'' records' words') :
    Logs appCats e e'' (records ++ records') (words ++ words') := by
  refine ⟨h'.wellFormed, ?_, ?_, ?_⟩
  · rw [h'.log, h.log, List.append_assoc]
  · rw [h'.contents, h.contents, List.zipWith_append h.readBack.length_eq, List.flatten_append,
      List.append_assoc]
  · exact List.rel_append h.readBack h'.readBack

theorem logHeader_adds {b : LogBuf} (h : b.WellFormed) (type lsn pid : UInt32) :
    b.Adds (Ekm.logHeader b type lsn pid) (word type ++ headerBytes lsn pid) := by
  have hBytes : [type, lsn, pid, ekmLogMagic].flatMap word = word type ++ headerBytes lsn pid := by
    simp [headerBytes]
  rw [Ekm.logHeader, ← hBytes]
  exact foldl_logAddInt_adds _ h

theorem logAppRecord_logs (h : e.buf.WellFormed) (pid : UInt32) {gr : AppRecord}
    (hCat : catOf gr.type ∈ appCats) (hLength : gr.data.bytes.length < 2147483648)
    (hValid : gr.data.bytes ≠ [] → gr.data.invalid = false) :
    Logs appCats e (e.logAppRecord pid gr) [⟨gr.type, e.lsn + 1, pid, .app gr.data.bytes⟩]
      [appBytes (e.lsn + 1) pid gr.data.bytes] := by
  have hHeader := logHeader_adds h gr.type (e.lsn + 1) pid
  have hAll := hHeader.trans (logAddSizedBuf_adds hHeader.wellFormed hLength hValid)
  refine ⟨hAll.wellFormed, rfl, ?_, .cons ?_ .nil⟩
  · rw [Ekm.logAppRecord, hAll.contents]
    simp [appBytes]
  · exact .inr ⟨hCat, reads_appRec _ _ _ (Nat.lt_trans hLength (by decide))⟩

theorem foldl_logAddBuf_adds {b : LogBuf} (data : List Pointer) (h : b.WellFormed)
    (hValid : ∀ p ∈ data, p.bytes ≠ [] → p.invalid = false) :
    b.Adds (data.foldl logAddBuf b) (data.flatMap Pointer.bytes) := by
  induction data generalizing b with
  | nil => exact h.adds_nil
  | cons p rest ih =>
    obtain ⟨hHere, hRest⟩ := List.forall_mem_cons.mp hValid
    have hFirst : b.Adds (b.logAddBuf p) p.bytes := by
      by_cases hNil : p.bytes = []
      · have hSame : b.logAddBuf p = b := by
          rw [logAddBuf, hNil]
          exact ite_self b
        rw [hSame, hNil]
        exact h.adds_nil
      · exact logAddBuf_adds h (hHere hNil)
    exact hFirst.trans (ih hFirst.wellFormed hRest)

theorem logBlockEntry_logs (appCats : List UInt32) (h : e.buf.WellFormed) (pid : UInt32)
    (type : LinuxRecType) (dev sector size : UInt32) (data : List Pointer)
    (hLength : type.hasData → (data.flatMap Pointer.bytes).length = size.toNat)
    (hValid : type.hasData → ∀ p ∈ data, p.bytes ≠ [] → p.invalid = false) :
    ∃ record bytes, Logs appCats e (e.logBlockEntry pid type dev sector size data) [record]
      [bytes] := by
  have hHeader := logHeader_adds h type.code e.lsn pid
  have hFields := hHeader.trans (foldl_logAddInt_adds [dev, 0, sector, size] hHeader.wellFormed)
  have hData : (if type.hasData then data.flatMap Pointer.bytes else []).length =
      if type.hasData then size.toNat else 0 := by
    split_ifs with hHas
    · exact hLength hHas
    · rfl
  have hAll : e.buf.Adds (e.logBlockEntry pid type dev sector size data).buf
      (word type.code ++ blockBytes e.lsn pid dev 0 sector size
        (if type.hasData then data.flatMap Pointer.bytes else [])) := by
    simp only [Ekm.logBlockEntry]
    split_ifs with hHas
    · have hLast := hFields.trans (foldl_logAddBuf_adds data hFields.wellFormed (hValid hHas))
      simpa [blockBytes] using hLast
    · simpa [blockBytes] using hFields
  refine ⟨⟨type.code, e.lsn, pid, .block dev 0 sector size
    (if type.hasData then data.flatMap Pointer.bytes else [])⟩,
    blockBytes e.lsn pid dev 0 sector size
      (if type.hasData then data.flatMap Pointer.bytes else []), hAll.wellFormed, rfl, ?_, ?_⟩
  · rw [hAll.contents]
    simp
  · exact .cons (.inl ⟨type.catOf_code, reads_linuxBlockRec type _ _ _ _ _ _ hData⟩) .nil

theorem toNat_ofNat_size {n : Nat} (h : n < 2147483648) : (UInt32.ofNat n).toNat = n :=
  UInt32.toNat_ofNat_of_lt' (Nat.lt_trans h (by decide))

theorem bhHook_logs (h : e.buf.WellFormed) (pid : UInt32) (t : Tracing) (state : BhState)
    {bh : BufferHead} (hLength : bh.data.bytes.length = bh.size) (hSize : bh.size < 2147483648) :
    ∃ records words, Logs appCats e (e.bhHook pid t state bh) records words := by
  rw [Ekm.bhHook]
  split_ifs with hTraced hInvalid
  · exact ⟨[], [], .refl h⟩
  · exact ⟨[], [], .refl h⟩
  · obtain ⟨record, bytes, hLogs⟩ := logBlockEntry_logs appCats h pid state.type bh.dev
      (.ofNat (bh.blocknr * (bh.size / 512))) (.ofNat bh.size) [bh.data]
      (fun _ => by rw [toNat_ofNat_size hSize]; simpa using hLength)
      fun _ p hp _ => by
        rw [List.mem_singleton.mp hp]
        exact Bool.eq_false_of_not_eq_true hInvalid
    exact ⟨_, _, hLogs⟩

theorem bioHook_logs (h : e.buf.WellFormed) (pid : UInt32) (t : Tracing) (state : BioState)
    {bio : Bio} (hSize : bio.size < 2147483648)
    (hLength : state.type.hasData → (bio.segments.flatMap Pointer.bytes).length = bio.size) :
    ∃ e' records words, e.bioHook pid t state bio = some e' ∧ Logs appCats e e' records words := by
  rw [Ekm.bioHook]
  split_ifs with hTraced hInvalid
  · exact ⟨e, [], [], rfl, .refl h⟩
  · exact ⟨e, [], [], rfl, .refl h⟩
  · rw [Ekm.logAddBioEntry, if_neg fun hBug => hBug.2 (hLength hBug.1)]
    obtain ⟨record, bytes, hLogs⟩ := logBlockEntry_logs appCats h pid state.type bio.dev
      (.ofNat bio.sector) (.ofNat bio.size) bio.segments
      (fun hHas => (hLength hHas).trans (toNat_ofNat_size hSize).symm)
      fun _ p hp _ => Bool.eq_false_of_not_eq_true fun hp' =>
        hInvalid (List.any_eq_true.mpr ⟨p, hp, hp'⟩)
    exact ⟨_, _, _, rfl, hLogs⟩

theorem reqHook_logs (h : e.buf.WellFormed) (pid : UInt32) (t : Tracing) (state : ReqState)
    {req : Request} (hLength : req.buffer.bytes.length = req.currentNrSectors * 512)
    (hSize : req.currentNrSectors * 512 < 2147483648)
    (hKeeps : req.dev ∈ t.devices → req.rw &&& state.dir ≠ 0 → state.type.hasData →
      req.buffer.bytes ≠ [] → req.buffer.invalid = false) :
    ∃ records words, Logs appCats e (e.reqHook pid t state req) records words := by
  rw [Ekm.reqHook]
  split_ifs with hTraced hRead
  · exact ⟨[], [], .refl h⟩
  · exact ⟨[], [], .refl h⟩
  · push Not at hTraced
    obtain ⟨record, bytes, hLogs⟩ := logBlockEntry_logs appCats h pid state.type req.dev
      (.ofNat req.sector) (.ofNat (req.currentNrSectors * 512)) [req.buffer]
      (fun _ => by rw [toNat_ofNat_size hSize]; simpa using hLength)
      fun hHas p hp hNil => by
        rw [List.mem_singleton.mp hp] at hNil ⊢
        exact hKeeps hTraced.1 hTraced.2 hHas hNil
    exact ⟨_, _, hLogs⟩

theorem step_logs (h : e.buf.WellFormed) (hook : UInt32 × Hook) (hHook : hook.2.WellFormed appCats)
    (hKeeps : hook.2.KeepsData) :
    ∃ e' records words, e.step hook = some e' ∧ Logs appCats e e' records words := by
  obtain ⟨pid, hook⟩ := hook
  cases hook with
  | app gr => exact ⟨_, _, _, rfl, logAppRecord_logs h pid hHook.1 hHook.2 hKeeps⟩
  | bh t state bh =>
    obtain ⟨records, words, hLogs⟩ := bhHook_logs h pid t state hHook.1 hHook.2
    exact ⟨_, records, words, rfl, hLogs⟩
  | bio t state bio => exact bioHook_logs h pid t state hHook.1 hHook.2
  | req t state req =>
    obtain ⟨records, words, hLogs⟩ := reqHook_logs h pid t state hHook.1 hHook.2 hKeeps
    exact ⟨_, records, words, rfl, hLogs⟩
  | enter | exit | copyLog => exact hHook.elim

theorem run_logs (hooks : List (UInt32 × Hook)) (h : e.buf.WellFormed)
    (hHooks : ∀ hook ∈ hooks, hook.2.WellFormed appCats)
    (hKeeps : ∀ hook ∈ hooks, hook.2.KeepsData) :
    ∃ e' records words, e.run hooks = some e' ∧ Logs appCats e e' records words := by
  induction hooks generalizing e with
  | nil => exact ⟨e, [], [], rfl, .refl h⟩
  | cons hook rest ih =>
    obtain ⟨hHere, hRest⟩ := List.forall_mem_cons.mp hHooks
    obtain ⟨hKeep, hKeepRest⟩ := List.forall_mem_cons.mp hKeeps
    obtain ⟨e₁, records, words, hStep, hFirst⟩ := step_logs h hook hHere hKeep
    obtain ⟨e₂, records', words', hRun, hMore⟩ := ih hFirst.wellFormed hRest hKeepRest
    refine ⟨e₂, _, _, ?_, hFirst.trans hMore⟩
    rw [Ekm.run, List.foldlM_cons, hStep]
    exact hRun

end

section
variable [ChunkHash] (xfs : Bool)

def handleRec (s : LogState) (r : Record) : Except LogFailure LogState :=
  if catOf r.type = linuxCat then handleLinuxBlockRec xfs r s else handleAppRec r s

variable (cat : UInt32) {appCats : List UInt32}

theorem lookup_linuxCat (appCats : List UInt32) : (LogMgr.the xfs cat appCats).lookup linuxCat =
    some (linuxBlockRecParser xfs) := rfl

theorem lookup_appCat (hUsr : ∀ c ∈ appCats, usrCatBegin < c) {c : UInt32} (hc : c ∈ appCats) :
    ∃ p, (LogMgr.the xfs cat appCats).lookup c = some p ∧
      p.parse = appRecParser.parse := by
  have hApps : ∀ cats : List UInt32, c ∈ cats →
      ∃ p, (cats.map fun c =>
          (c, if c = cat then Permuter.recParser c else appRecParser)).lookup c = some p ∧
        p.parse = appRecParser.parse := by
    intro cats hMem
    induction cats with
    | nil => cases hMem
    | cons c' rest ih =>
      rw [List.map_cons, List.lookup_cons]
      by_cases hHere : c = c'
      · rw [hHere, beq_self_eq_true]
        refine ⟨_, rfl, ?_⟩
        split_ifs <;> rfl
      · rw [beq_false_of_ne hHere]
        exact ih (List.mem_of_ne_of_mem hHere hMem)
  have hOther : ∀ c' : UInt32, c' ≤ usrCatBegin → (c == c') = false := by
    intro c' hLow
    refine beq_false_of_ne ?_
    rintro rfl
    exact absurd (hUsr c hc) (UInt32.not_lt.mpr hLow)
  obtain ⟨p, hLookup, hParse⟩ := hApps appCats hc
  refine ⟨p, ?_, hParse⟩
  rw [LogMgr.the, List.cons_append, List.cons_append, List.cons_append, List.cons_append,
    List.nil_append, List.lookup_cons, hOther _ (by decide), List.lookup_cons, hOther _ (by decide),
    List.lookup_cons, hOther _ (by decide), List.lookup_cons, hOther _ (by decide)]
  exact hLookup

omit [ChunkHash] in
theorem parseLoop_word {σ : Type} (mgr : LogMgr σ) {type : UInt32} {p : RecParser σ}
    (hParser : mgr.lookup (catOf type) = some p) (n : Nat) (rest : Bytes) (s : σ) :
    mgr.parseLoop (n + 1) (word type ++ rest) s =
      (p.parse type rest s).bind fun r => mgr.parseLoop n r.2 r.1 := by
  have hWord := reads_word type rest
  obtain ⟨b, bytes, hCons⟩ : ∃ b bytes, word type ++ rest = b :: bytes := ⟨_, _, rfl⟩
  rw [hCons] at hWord ⊢
  rw [LogMgr.parseLoop, hWord]
  simp only [hParser]

theorem parseLoop_record (hUsr : ∀ c ∈ appCats, usrCatBegin < c) {r : Record} {bytes : Bytes}
    (h : ReadBack appCats r bytes) (n : Nat) (rest : Bytes) (s : LogState) :
    (LogMgr.the xfs cat appCats).parseLoop (n + 1) (word r.type ++ bytes ++ rest) s =
      (handleRec xfs s r).bind
        ((LogMgr.the xfs cat appCats).parseLoop n rest) := by
  rw [List.append_assoc]
  rcases h with ⟨hCat, hReads⟩ | ⟨hCat, hReads⟩
  · have hLookup := lookup_linuxCat xfs cat appCats
    rw [← hCat] at hLookup
    rw [parseLoop_word _ hLookup, handleRec, if_pos hCat]
    simp only [linuxBlockRecParser, RecParser.ofReader, hReads rest]
    cases handleLinuxBlockRec xfs r s <;> rfl
  · obtain ⟨p, hLookup, hParse⟩ := lookup_appCat xfs cat hUsr hCat
    have hNot : catOf r.type ≠ linuxCat := by
      intro hEq
      have hLt := hUsr _ hCat
      rw [hEq] at hLt
      exact absurd hLt (by decide)
    rw [parseLoop_word _ hLookup, hParse, handleRec, if_neg hNot]
    simp only [appRecParser, RecParser.ofReader, hReads rest]
    rfl

omit [ChunkHash] in
theorem length_le_words {records : List Record} {words : List Bytes}
    (h : List.Forall₂ (ReadBack appCats) records words) :
    records.length ≤
      (records.zipWith (fun r bytes => word r.type ++ bytes) words).flatten.length := by
  induction h with
  | nil => exact Nat.le_refl 0
  | cons _ _ ih =>
    rw [List.zipWith_cons_cons, List.flatten_cons, List.length_append, List.length_append,
      length_word, List.length_cons]
    omega

theorem parseLoop_records (hUsr : ∀ c ∈ appCats, usrCatBegin < c) {records : List Record}
    {words : List Bytes} (h : List.Forall₂ (ReadBack appCats) records words) (n : Nat)
    (hn : records.length ≤ n) (s : LogState) :
    (LogMgr.the xfs cat appCats).parseLoop n
      (records.zipWith (fun r bytes => word r.type ++ bytes) words).flatten s =
      records.foldlM (handleRec xfs) s := by
  induction h generalizing n s with
  | nil => cases n <;> rfl
  | @cons r bytes records words hHere _ ih =>
    obtain ⟨n, rfl⟩ : ∃ m, n = m + 1 := ⟨n - 1, by simp at hn; omega⟩
    rw [List.zipWith_cons_cons, List.flatten_cons, parseLoop_record xfs cat hUsr hHere,
      List.foldlM_cons]
    cases handleRec xfs s r with
    | error f => rfl
    | ok s' => exact ih n (by simp at hn; omega) s'

end

theorem handleRec_error [ChunkHash] {xfs : Bool} {s : LogState} {r : Record}
    {f : LogFailure} (h : handleRec xfs s r = .error f) : ∃ g, f = .block g := by
  rw [handleRec] at h
  split_ifs at h
  · rw [handleLinuxBlockRec] at h
    split at h
    · split at h
      · cases h
        exact ⟨_, rfl⟩
      · cases h
    · cases h
  · cases h

def sampleHooks : List (UInt32 × Hook) :=
  [(7, .app ⟨makeType 33 2, ⟨0x2000, [1, 2, 3]⟩⟩),
    (8, .bh ⟨[5], false⟩ .dirty ⟨5, 3, 512, ⟨0x2000, List.replicate 512 9⟩⟩)]

attribute [local instance] checksumHash

end Explode.Ekm
