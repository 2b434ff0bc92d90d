import Explode.Lib.ByteStream
import Explode.Mcl.Frame
import Explode.Mcl.ScoredSearch

/-!
# The checkpoint file of the checker

`self_checkpoint` writes the queue, the two tables, the mode and the number of
bugs into a file, from which `self_restore` fills a new checker.
-/

namespace Explode.Mcl

open ByteStream ModelChecker

variable {St : Type}

def writeTrace (trace : Trace) : Bytes := signed trace.length ++ trace

def readByte : Reader UInt8 := fun bytes =>
  match bytes with
  | [] => none
  | b :: rest => some (b, rest)

def readTrace : Reader Trace := andThen readSigned fun size => times readByte size.toNat

def readIndex : Reader Nat := andThen readSigned fun n bytes =>
  if 0 ≤ n then some (n.toNat, bytes) else none

namespace State

def toFile (s : State St UInt32) : Bytes :=
  signed s.id ++ (signed s.start ++ (word s.sig ++ writeTrace s.trace))

def toFileScore (s : State St UInt32) : Bytes := s.toFile ++ signed s.score

def ofFile (addr : Nat) : Reader (State St UInt32) :=
  andThen readIndex fun id => andThen readIndex fun start => andThen readWord fun sig =>
    andThen readTrace fun trace =>
      done { start := start, id := id, sig := sig, trace := trace, score := 0, addr := addr,
             path := [] }

def ofFileScore (addr : Nat) : Reader (State St UInt32) :=
  andThen (ofFile addr) fun s => andThen readSigned fun score => done { s with score := score }

/-- What a file says about a state. States on the other queues have no score. -/
def saved (opt : Options) (s : State St UInt32) : Nat × Nat × UInt32 × Trace × Option Int :=
  (s.id, s.start, s.sig, s.trace, if opt.queue = .priority then some s.score else none)

end State

namespace Checkpoint

def toFile (c : Checkpoint Bytes) : Bytes :=
  signed c.data.length ++ (c.data ++ (signed c.parentId ++ writeTrace c.trace))

def ofFile : Reader (Checkpoint Bytes) :=
  andThen readIndex fun len => andThen (take len) fun data => andThen readIndex fun parentId =>
    andThen readTrace fun trace => done { data := data, parentId := parentId, trace := trace }

end Checkpoint

def saveState (opt : Options) (s : State St UInt32) : Bytes :=
  match opt.queue with
  | .priority => s.toFileScore
  | _ => s.toFile

def restoreState (opt : Options) (addr : Nat) : Reader (State St UInt32) :=
  match opt.queue with
  | .priority => State.ofFileScore addr
  | _ => State.ofFile addr

def saveStates (opt : Options) (q : List (State St UInt32)) : Bytes :=
  signed q.length ++ q.flatMap (saveState opt)

/-- The loop of `restore_states_from_file`, with the number of states allocated before. -/
def restoreLoop (opt : Options) : Nat → Nat → Reader (List (State St UInt32))
  | _, 0 => done []
  | allocs, n + 1 => andThen (restoreState opt (opt.address allocs)) fun s =>
      andThen (restoreLoop opt (allocs + 1) n) fun rest => done (s :: rest)

def restoreStates (opt : Options) (allocs : Nat) : Reader (List (State St UInt32)) :=
  andThen readIndex fun size => restoreLoop opt allocs size

def Mode.code : Mode → Int
  | modelCheck => 1
  | replay => 2
  | regenState => 3

def readMode : Reader Mode := andThen readSigned fun n bytes =>
  ([Mode.modelCheck, .replay, .regenState].find? fun mode => mode.code = n).map fun mode =>
    (mode, bytes)

def ckptToFile (entry : Nat × Checkpoint Bytes) : Bytes := signed entry.1 ++ entry.2.toFile

def ckptOfFile : Reader (Nat × Checkpoint Bytes) :=
  andThen readIndex fun id => andThen Checkpoint.ofFile fun ckpt => done (id, ckpt)

def visitedToFile (entry : UInt32 × Nat) : Bytes := word entry.1 ++ signed entry.2

def visitedOfFile : Reader (UInt32 × Nat) :=
  andThen readWord fun sig => andThen readIndex fun id => done (sig, id)

namespace ModelChecker

def selfCheckpoint (opt : Options) (mc : ModelChecker St UInt32 Bytes)
    (ckpts : List (Nat × Checkpoint Bytes)) (visited : List (UInt32 × Nat)) : Bytes :=
  saveStates opt mc.q ++ (signed ckpts.length ++ (ckpts.flatMap ckptToFile ++
    (signed visited.length ++
      (visited.flatMap visitedToFile ++ (signed mc.mode.code ++ signed mc.bugs)))))

def setCkpt (table : Nat → Option (Checkpoint Bytes))
    (entry : Nat × Checkpoint Bytes) : Nat → Option (Checkpoint Bytes) :=
  Function.update table entry.1 (some entry.2)

def addVisited (mc : ModelChecker St UInt32 Bytes) (entry : UInt32 × Nat) :
    ModelChecker St UInt32 Bytes :=
  { mc with visited := mc.visit entry.1 entry.2 }

def filled (mc : ModelChecker St UInt32 Bytes) (q : List (State St UInt32))
    (ckpts : List (Nat × Checkpoint Bytes)) (visited : List (UInt32 × Nat)) (mode : Mode)
    (bugs : Int) : ModelChecker St UInt32 Bytes :=
  visited.foldl addVisited { mc with
    q := mc.q ++ q, allocs := mc.allocs + q.length, ckpts := ckpts.foldl setCkpt mc.ckpts,
    mode := mode, bugs := bugs }

def selfRestore (opt : Options) (mc : ModelChecker St UInt32 Bytes) :
    Reader (ModelChecker St UInt32 Bytes) :=
  andThen (restoreStates opt mc.allocs) fun q =>
    andThen readSigned fun size => andThen (times ckptOfFile size.toNat) fun ckpts =>
      andThen readSigned fun size => andThen (times visitedOfFile size.toNat) fun visited =>
        andThen readMode fun mode => andThen readSigned fun bugs =>
          done (mc.filled q ckpts visited mode bugs)

end ModelChecker

/-- Every number that the checkpoint of the checker stores fits in an `int`. -/
structure FitsInt (mc : ModelChecker St UInt32 Bytes)
    (ckpts : List (Nat × Checkpoint Bytes)) : Prop where
  queue : IsInt mc.q.length
  states : ∀ s ∈ mc.q, IsInt s.id ∧ IsInt s.start ∧ IsInt s.trace.length ∧ IsInt s.score
  size : IsInt ckpts.length
  ckpts : ∀ entry ∈ ckpts, IsInt entry.1 ∧ IsInt entry.2.data.length ∧
    IsInt entry.2.parentId ∧ IsInt entry.2.trace.length
  visited : IsInt mc.visited.length
  ids : ∀ entry ∈ mc.visited, IsInt entry.2
  bugs : IsInt mc.bugs

structure Lists (ckpts : List (Nat × Checkpoint Bytes))
    (table : Nat → Option (Checkpoint Bytes)) : Prop where
  nodup : (ckpts.map Prod.fst).Nodup
  mem_iff : ∀ id ckpt, (id, ckpt) ∈ ckpts ↔ table id = some ckpt

theorem reads_bytes (bytes : Bytes) : Reads (times readByte bytes.length) bytes bytes := by
  have hByte : ∀ b ∈ bytes, Reads readByte [b] (id b) := fun b _ rest => rfl
  simpa using reads_times hByte

theorem reads_trace {trace : Trace} (h : IsInt trace.length) :
    Reads readTrace (writeTrace trace) trace :=
  (reads_signed h).andThen (reads_bytes trace)

theorem reads_index {n : Nat} (h : IsInt n) : Reads readIndex (signed n) n := by
  intro rest
  rw [readIndex, andThen, reads_signed h, Option.bind_some, if_pos (Int.natCast_nonneg n)]
  rfl

theorem reads_mode (mode : Mode) : Reads readMode (signed mode.code) mode := by
  intro rest
  have hCode : IsInt mode.code := by cases mode <;> decide
  rw [readMode, andThen, reads_signed hCode, Option.bind_some]
  cases mode <;> rfl

theorem State.reads_ofFile {s : State St UInt32} (hId : IsInt s.id) (hStart : IsInt s.start)
    (hTrace : IsInt s.trace.length) (addr : Nat) :
    Reads (State.ofFile addr) s.toFile
      ({ s with score := 0, addr := addr, path := [] } : State St UInt32) :=
  (reads_index hId).andThen ((reads_index hStart).andThen ((reads_word s.sig).andThen
    (reads_trace hTrace).andThen_done))

theorem State.reads_ofFileScore {s : State St UInt32} (hId : IsInt s.id) (hStart : IsInt s.start)
    (hTrace : IsInt s.trace.length) (hScore : IsInt s.score) (addr : Nat) :
    Reads (State.ofFileScore addr) s.toFileScore
      ({ s with addr := addr, path := [] } : State St UInt32) :=
  (State.reads_ofFile hId hStart hTrace addr).andThen (reads_signed hScore).andThen_done

theorem reads_state (opt : Options) {s : State St UInt32}
    (h : IsInt s.id ∧ IsInt s.start ∧ IsInt s.trace.length ∧ IsInt s.score) (addr : Nat) :
    ∃ s' : State St UInt32, Reads (restoreState opt addr) (saveState opt s) s' ∧
      s'.saved opt = s.saved opt := by
  obtain ⟨hId, hStart, hTrace, hScore⟩ := h
  by_cases hQueue : opt.queue = .priority
  · refine ⟨{ s with addr := addr, path := [] }, ?_, rfl⟩
    rw [restoreState, saveState, hQueue]
    exact State.reads_ofFileScore hId hStart hTrace hScore addr
  · refine ⟨{ s with score := 0, addr := addr, path := [] }, ?_, by simp [State.saved, hQueue]⟩
    have hRead := State.reads_ofFile hId hStart hTrace addr
    unfold restoreState saveState
    split
    · exact absurd ‹_› hQueue
    · exact hRead

theorem reads_restoreLoop (opt : Options) {q : List (State St UInt32)}
    (h : ∀ s ∈ q, IsInt s.id ∧ IsInt s.start ∧ IsInt s.trace.length ∧ IsInt s.score)
    (allocs : Nat) :
    ∃ q' : List (State St UInt32),
      Reads (restoreLoop opt allocs q.length) (q.flatMap (saveState opt)) q' ∧
        q'.map (State.saved opt) = q.map (State.saved opt) := by
  induction q generalizing allocs with
  | nil => exact ⟨[], reads_done [], rfl⟩
  | cons s q ih =>
    obtain ⟨s', hRead, hSaved⟩ := reads_state opt (h s List.mem_cons_self) (opt.address allocs)
    obtain ⟨q', hReads, hSame⟩ := ih (fun s hs => h s (List.mem_cons_of_mem _ hs)) (allocs + 1)
    refine ⟨s' :: q', hRead.andThen hReads.andThen_done, ?_⟩
    rw [List.map_cons, List.map_cons, hSaved, hSame]

theorem reads_ckpt {entry : Nat × Checkpoint Bytes}
    (h : IsInt entry.1 ∧ IsInt entry.2.data.length ∧ IsInt entry.2.parentId ∧
      IsInt entry.2.trace.length) : Reads ckptOfFile (ckptToFile entry) entry := by
  obtain ⟨hId, hLen, hParent, hTrace⟩ := h
  have hCkpt : Reads Checkpoint.ofFile entry.2.toFile entry.2 :=
    (reads_index hLen).andThen ((reads_take entry.2.data).andThen ((reads_index hParent).andThen
      (reads_trace hTrace).andThen_done))
  exact (reads_index hId).andThen hCkpt.andThen_done

theorem reads_visited {entry : UInt32 × Nat} (h : IsInt entry.2) :
    Reads visitedOfFile (visitedToFile entry) entry :=
  (reads_word entry.1).andThen (reads_index h).andThen_done

variable {mc : ModelChecker St UInt32 Bytes}

theorem foldl_setCkpt_of_notMem {id : Nat} {ckpts : List (Nat × Checkpoint Bytes)}
    (h : id ∉ ckpts.map Prod.fst) (table : Nat → Option (Checkpoint Bytes)) :
    ckpts.foldl setCkpt table id = table id := by
  induction ckpts generalizing table with
  | nil => rfl
  | cons entry rest ih =>
    rw [List.map_cons, List.mem_cons, not_or] at h
    rw [List.foldl_cons, ih h.2, setCkpt, Function.update_of_ne h.1]

theorem foldl_setCkpt_of_mem {id : Nat} {ckpt : Checkpoint Bytes}
    {ckpts : List (Nat × Checkpoint Bytes)} (hNodup : (ckpts.map Prod.fst).Nodup)
    (h : (id, ckpt) ∈ ckpts) (table : Nat → Option (Checkpoint Bytes)) :
    ckpts.foldl setCkpt table id = some ckpt := by
  induction ckpts generalizing table with
  | nil => cases h
  | cons entry rest ih =>
    rw [List.map_cons, List.nodup_cons] at hNodup
    rcases List.mem_cons.mp h with rfl | h
    · rw [List.foldl_cons, foldl_setCkpt_of_notMem hNodup.1, setCkpt, Function.update_self]
    · exact ih hNodup.2 h _

theorem Lists.foldl_setCkpt {ckpts : List (Nat × Checkpoint Bytes)}
    {table : Nat → Option (Checkpoint Bytes)} (h : Lists ckpts table) :
    ckpts.foldl setCkpt (fun _ => none) = table := by
  funext id
  cases hId : table id with
  | some ckpt => exact foldl_setCkpt_of_mem h.nodup ((h.mem_iff id ckpt).mpr hId) _
  | none =>
    refine foldl_setCkpt_of_notMem (fun hKey => ?_) _
    obtain ⟨⟨_, ckpt⟩, hEntry, rfl⟩ := List.mem_map.mp hKey
    rw [(h.mem_iff _ ckpt).mp hEntry] at hId
    cases hId

theorem foldl_addVisited {visited : List (UInt32 × Nat)} {mc : ModelChecker St UInt32 Bytes}
    (h : ((mc.visited ++ visited).map Prod.fst).Nodup) :
    visited.foldl addVisited mc = { mc with visited := mc.visited ++ visited } := by
  induction visited generalizing mc with
  | nil => simp
  | cons entry rest ih =>
    have hNew : ¬mc.seen entry.1 := by
      rw [seen_iff]
      intro hOld
      rw [List.map_append, List.map_cons] at h
      exact (List.nodup_append.mp h).2.2 _ hOld _ List.mem_cons_self rfl
    have hVisit := visit_eq_of_not_seen hNew entry.2
    have hNext : mc.addVisited entry = { mc with visited := mc.visited ++ [entry] } := by
      rw [addVisited, hVisit]
    rw [List.foldl_cons, hNext, ih]
    · simp
    · simpa using h

/-- A new checker is filled with what was saved, and the file is read to its end. -/
theorem selfRestore_selfCheckpoint (h : TestHarness St UInt32 Bytes) (opt : Options)
    (rand : Random) {ckpts : List (Nat × Checkpoint Bytes)} {visited : List (UInt32 × Nat)}
    (hTable : (mc.visited.map Prod.fst).Nodup) (hLists : Lists ckpts mc.ckpts)
    (hOrder : visited.Perm mc.visited) (hFits : FitsInt mc ckpts) (rest : Bytes) :
    ∃ mc', selfRestore opt (create h .modelCheck rand)
        (mc.selfCheckpoint opt ckpts visited ++ rest) = some (mc', rest) ∧
      mc'.q.map (State.saved opt) = mc.q.map (State.saved opt) ∧ mc'.ckpts = mc.ckpts ∧
      mc'.visited.Perm mc.visited ∧ mc'.mode = mc.mode ∧ mc'.bugs = mc.bugs := by
  let new := create h .modelCheck rand
  obtain ⟨q, hLoop, hSaved⟩ := reads_restoreLoop opt hFits.states new.allocs
  have hStates : Reads (restoreStates opt new.allocs) (saveStates opt mc.q) q :=
    (reads_index hFits.queue).andThen hLoop
  have hCkptEntries : Reads (times ckptOfFile ckpts.length) (ckpts.flatMap ckptToFile) ckpts := by
    simpa using reads_times (g := id) fun entry hEntry => reads_ckpt (hFits.ckpts entry hEntry)
  have hVisitedEntries : Reads (times visitedOfFile visited.length)
      (visited.flatMap visitedToFile) visited := by
    simpa using reads_times (g := id) fun entry hEntry =>
      reads_visited (hFits.ids entry (hOrder.subset hEntry))
  have hSize : IsInt visited.length := hOrder.length_eq ▸ hFits.visited
  have hRead : Reads (selfRestore opt new) (mc.selfCheckpoint opt ckpts visited)
      (new.filled q ckpts visited mc.mode mc.bugs) := by
    refine hStates.andThen ((reads_signed hFits.size).andThen (hCkptEntries.andThen ?_))
    refine (reads_signed hSize).andThen (hVisitedEntries.andThen ?_)
    exact (reads_mode mc.mode).andThen (reads_signed hFits.bugs).andThen_done
  refine ⟨_, hRead rest, ?_⟩
  have hKeys : (visited.map Prod.fst).Nodup := (hOrder.map Prod.fst).nodup_iff.mpr hTable
  rw [filled, foldl_addVisited (by exact hKeys)]
  exact ⟨hSaved, hLists.foldl_setCkpt, hOrder, rfl, rfl⟩

def idle : TestHarness Nat UInt32 Bytes where
  init := 0
  runOneTransition st := ⟨.done ⟨.skip, st, 0⟩, trivial⟩
  getSig _ := 7
  shouldCheckpoint _ _ := true
  checkpoint _ := [1, 2, 3]
  restore _ st := st
  hook _ st := (.exit, st)
  onError := id

/-- Before the first pass of the loop, with the priority queue. -/
theorem selfRestore_selfCheckpoint_idle :
    ∃ mc', selfRestore scoredOptions (create idle .modelCheck (.enum ⟨[], [], 0⟩))
        ((modelCheck idle scoredOptions).selfCheckpoint scoredOptions
          [(0, ⟨[1, 2, 3], 0, []⟩)] [(7, 0)] ++ []) = some (mc', []) ∧
      mc'.q.map (State.saved scoredOptions) = [(0, 0, 7, [], some 0)] ∧
      mc'.visited.Perm [(7, 0)] ∧ mc'.bugs = 0 := by
  have hLists : Lists [(0, ⟨[1, 2, 3], 0, []⟩)] (modelCheck idle scoredOptions).ckpts := by
    refine ⟨by decide, fun id ckpt => ?_⟩
    rw [modelCheck_ckpts, List.mem_singleton, Prod.mk.injEq]
    by_cases hId : id = 0
    · simp only [hId, true_and, if_true, Option.some.injEq]
      exact eq_comm
    · simp [hId]
  have hFits : FitsInt (modelCheck idle scoredOptions) [(0, ⟨[1, 2, 3], 0, []⟩)] :=
    ⟨by decide, by decide, by decide, by decide, by decide, by decide, by decide⟩
  obtain ⟨mc', hRead, hSaved, _, hVisited, _, hBugs⟩ := selfRestore_selfCheckpoint idle
    scoredOptions (.enum ⟨[], [], 0⟩) (visited_nodup_of_reaches (.refl _ _)) hLists
    (.refl [(7, 0)]) hFits []
  exact ⟨mc', hRead, hSaved, hVisited, hBugs⟩

end Explode.Mcl
