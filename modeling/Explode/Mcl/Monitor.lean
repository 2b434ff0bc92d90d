import Explode.Lib.ByteStream
import Mathlib.Algebra.GroupWithZero.Nat
import Mathlib.Data.List.Forall2

/-!
# The monitor

The model checker tells a monitor that it lives, that it wants a restart or that
it is done. The monitor collects what it receives until a command is complete,
and handles it.
-/

namespace Explode.Mcl

open ByteStream

def maxMonitorMsgLen : Nat := 4096

namespace Monitor

inductive Cmd
  | heartBeat (msg : Bytes)
  | wantRestart
  | progDone
  | progDead
  deriving DecidableEq, Repr

def Cmd.code : Cmd → UInt32
  | heartBeat _ => 0
  | wantRestart => 1
  | progDone => 2
  | progDead => 3

/-- `send_heart_beat`, which sends the length as it is and at most so many bytes of the message, and
`send`. -/
def Cmd.bytes : Cmd → Bytes
  | heartBeat msg => word 0 ++ (word (.ofNat msg.length) ++ msg.take maxMonitorMsgLen)
  | cmd => word cmd.code

/-- What `cmd_complete` finds. A command may be none of those that there are. -/
inductive Received
  | incomplete
  | complete (cmd : Option Cmd)
  | aborted
  deriving DecidableEq, Repr

def cmdOf (code : UInt32) : Option Cmd :=
  [.wantRestart, .progDone, .progDead].find? fun cmd => cmd.code = code

/-- `cmd_complete`, which asserts that the message is not too long. A negative length is caught by
the copy of the message. -/
def cmdComplete (buf : Bytes) : Received :=
  match readWord buf with
  | none => .incomplete
  | some (code, rest) =>
    if code ≠ 0 then .complete (cmdOf code)
    else
      match readWord rest with
      | none => .incomplete
      | some (len, rest) =>
        if maxMonitorMsgLen ≤ len.toNat then .aborted
        else if rest.length < len.toNat then .incomplete
        else .complete (some (.heartBeat (rest.take len.toNat)))

inductive Status
  | running
  | restarted
  | returned
  | aborted
  deriving DecidableEq, Repr

/-- The loop of `listen` for one connection: the bytes in the buffer and the commands that were
handled. -/
structure Listener where
  cmdBuf : Bytes
  handled : List Cmd
  status : Status
  deriving DecidableEq, Repr

def cmdBufSize : Nat := 4096

namespace Listener

def handle (m : Listener) (cmd : Cmd) : Listener :=
  let m := { m with handled := m.handled ++ [cmd] }
  match cmd with
  | .heartBeat _ => m
  | .wantRestart | .progDead => { m with status := .restarted }
  | .progDone => { m with status := .returned }

/-- What `recv` returned. No bytes mean that the socket was closed or that there is no room. -/
def onRecv (m : Listener) (chunk : Bytes) : Listener :=
  if chunk = [] then m.handle .progDead
  else
    match cmdComplete (m.cmdBuf ++ chunk) with
    | .incomplete => { m with cmdBuf := m.cmdBuf ++ chunk }
    | .complete none => { m with cmdBuf := [] }
    | .complete (some cmd) => { m with cmdBuf := [] }.handle cmd
    | .aborted => { m with status := .aborted }

def room (m : Listener) : Nat := cmdBufSize - m.cmdBuf.length

/-- Receive a stream. The environment cuts it: each pass gets one byte more than the next number
says, or as many as there is room for. -/
def serve : Listener → Bytes → List Nat → Listener × Bytes
  | m, [], _ => (m, [])
  | m, stream, [] => (m, stream)
  | m, stream, n :: cuts =>
    if m.status = .running then
      let k := min (n + 1) m.room
      serve (m.onRecv (stream.take k)) (stream.drop k) cuts
    else (m, stream)

end Listener

/-- The bytes that arrive on a connection, how they are cut, and whether the peer closes it then. -/
structure Connection where
  stream : Bytes
  cuts : List Nat
  closed : Bool
  deriving DecidableEq, Repr

/-- A connection is served with what the buffer holds when it is accepted. -/
def serveConnection (buf : Bytes) (c : Connection) : Listener :=
  let r := Listener.serve ⟨buf, [], .running⟩ c.stream c.cuts
  if r.1.status = .running ∧ r.2 = [] ∧ c.closed then r.1.onRecv [] else r.1

/-- `listen`: the commands that are handled on each connection. -/
def listen : Bytes → List Connection → List (List Cmd)
  | _, [] => []
  | buf, c :: rest =>
    let m := serveConnection buf c
    m.handled :: if m.status = .restarted then listen m.cmdBuf rest else []

def Cmd.stops : Cmd → Bool
  | heartBeat _ => false
  | wantRestart | progDone | progDead => true

def untilStop : List Cmd → List Cmd
  | [] => []
  | cmd :: rest => if cmd.stops then [cmd] else cmd :: untilStop rest

def Cmd.Fits : Cmd → Prop
  | heartBeat msg => msg.length + 8 ≤ cmdBufSize
  | wantRestart | progDone | progDead => True

instance : (cmd : Cmd) → Decidable cmd.Fits
  | .heartBeat msg => inferInstanceAs (Decidable (msg.length + 8 ≤ cmdBufSize))
  | .wantRestart => inferInstanceAs (Decidable True)
  | .progDone => inferInstanceAs (Decidable True)
  | .progDead => inferInstanceAs (Decidable True)

section
variable {cmd : Cmd}

theorem Cmd.bytes_heartBeat {msg : Bytes} (h : (heartBeat msg).Fits) :
    (heartBeat msg).bytes = word 0 ++ (word (.ofNat msg.length) ++ msg) := by
  have hLength : msg.length + 8 ≤ 4096 := h
  rw [Cmd.bytes, List.take_of_length_le]
  show msg.length ≤ 4096
  omega

theorem Cmd.toNat_length {msg : Bytes} (h : (heartBeat msg).Fits) :
    (UInt32.ofNat msg.length).toNat = msg.length ∧ msg.length < maxMonitorMsgLen := by
  have hLength : msg.length + 8 ≤ 4096 := h
  have hLess : msg.length < 4096 := by omega
  exact ⟨UInt32.toNat_ofNat_of_lt' (Nat.lt_trans hLess (by decide)), hLess⟩

theorem Cmd.length_bytes_le (h : cmd.Fits) : cmd.bytes.length ≤ cmdBufSize := by
  cases cmd with
  | heartBeat msg =>
    have hLength : msg.length + 8 ≤ cmdBufSize := h
    rw [Cmd.bytes_heartBeat h, List.length_append, List.length_append, length_word, length_word]
    omega
  | wantRestart | progDone | progDead => decide

theorem Cmd.bytes_ne_nil (cmd : Cmd) : cmd.bytes ≠ [] := by
  cases cmd <;> exact List.cons_ne_nil _ _

theorem cmdComplete_bytes (h : cmd.Fits) : cmdComplete cmd.bytes = .complete (some cmd) := by
  cases cmd with
  | heartBeat msg =>
    obtain ⟨hLength, hLess⟩ := Cmd.toNat_length h
    have hCode := reads_word 0 (word (.ofNat msg.length) ++ msg)
    rw [Cmd.bytes_heartBeat h, cmdComplete, hCode]
    simp only [ne_eq, not_true_eq_false, if_false, reads_word _ msg, hLength]
    rw [if_neg (by omega), if_neg (by omega), List.take_length]
  | wantRestart | progDone | progDead => decide

theorem cmdComplete_of_append (h : cmd.Fits) {front back : Bytes}
    (hBytes : cmd.bytes = front ++ back) (hBack : back ≠ []) : cmdComplete front = .incomplete := by
  have hBackLength : 0 < back.length := List.length_pos_iff.mpr hBack
  have hLength := congrArg List.length hBytes
  rw [List.length_append] at hLength
  by_cases hShort : front.length < 4
  · rw [cmdComplete, readWord_short hShort]
  cases cmd with
  | heartBeat msg =>
    obtain ⟨hLen, hLess⟩ := Cmd.toNat_length h
    rw [Cmd.bytes_heartBeat h] at hBytes hLength
    simp only [List.length_append, length_word] at hLength
    obtain ⟨front, rfl⟩ := word_of_append hBytes (by omega)
    rw [List.append_assoc, List.append_cancel_left_eq] at hBytes
    rw [cmdComplete, reads_word 0 front]
    simp only [ne_eq, not_true_eq_false, if_false]
    by_cases hShort' : front.length < 4
    · rw [readWord_short hShort']
    obtain ⟨front, rfl⟩ := word_of_append hBytes (by omega)
    simp only [List.length_append, length_word] at hLength
    rw [reads_word _ front]
    simp only [hLen]
    rw [if_neg (by omega), if_pos (by omega)]
  | wantRestart | progDone | progDead =>
    have hFour : front.length + back.length = 4 := hLength.symm
    omega

end

namespace Listener

theorem serve_cons {m : Listener} (h : m.status = .running) {stream : Bytes} (hStream : stream ≠ [])
    (n : Nat) (cuts : List Nat) :
    m.serve stream (n :: cuts) = (m.onRecv (stream.take (min (n + 1) m.room))).serve
      (stream.drop (min (n + 1) m.room)) cuts := by
  obtain ⟨b, rest, rfl⟩ := List.exists_cons_of_ne_nil hStream
  rw [serve, if_pos h]
  exact hStream

theorem serve_nil (m : Listener) (cuts : List Nat) : m.serve [] cuts = (m, []) := by
  cases cuts <;> rfl

theorem serve_stopped {m : Listener} (h : m.status ≠ .running) (stream : Bytes)
    (cuts : List Nat) : m.serve stream cuts = (m, stream) := by
  cases stream with
  | nil => exact serve_nil m cuts
  | cons b rest =>
    cases cuts with
    | nil => rfl
    | cons n cuts =>
      rw [serve, if_neg h]
      exact List.cons_ne_nil b rest

theorem serve_command {cmd : Cmd} (hFits : cmd.Fits) (pieces : List Nat) (handled : List Cmd)
    {front back : Bytes} (hBytes : cmd.bytes = front ++ back) (hBack : back ≠ [])
    (hSum : (pieces.map (· + 1)).sum = back.length) (stream : Bytes) (cuts : List Nat) :
    serve ⟨front, handled, .running⟩ (back ++ stream) (pieces ++ cuts) =
      (handle ⟨[], handled, .running⟩ cmd).serve stream cuts := by
  have hBackLength : 0 < back.length := List.length_pos_iff.mpr hBack
  induction pieces generalizing front back with
  | nil =>
    rw [List.map_nil, List.sum_nil] at hSum
    omega
  | cons n pieces ih =>
    rw [List.map_cons, List.sum_cons] at hSum
    have hLength := congrArg List.length hBytes
    have hBound := Cmd.length_bytes_le hFits
    rw [List.length_append] at hLength
    have hRoom : min (n + 1) (room ⟨front, handled, .running⟩) = n + 1 := by
      simp only [room]
      omega
    have hTake : (back ++ stream).take (n + 1) = back.take (n + 1) :=
      List.take_append_of_le_length (by omega)
    have hDrop : (back ++ stream).drop (n + 1) = back.drop (n + 1) ++ stream :=
      List.drop_append_of_le_length (by omega)
    have hChunk : back.take (n + 1) ≠ [] := by
      intro hNil
      have hZero := congrArg List.length hNil
      rw [List.length_take, List.length_nil] at hZero
      omega
    rw [List.cons_append, serve_cons rfl (by simp [hBack]), hRoom, hTake, hDrop, onRecv,
      if_neg hChunk]
    by_cases hLast : back.drop (n + 1) = []
    · -- the last piece completes the command
      have hAll : back.take (n + 1) = back := by
        rw [← List.append_nil (List.take _ _), ← hLast, List.take_append_drop]
      obtain rfl : pieces = [] := by
        have hZero := congrArg List.length hLast
        rw [List.length_drop, List.length_nil] at hZero
        cases pieces with
        | nil => rfl
        | cons n' rest =>
          rw [List.map_cons, List.sum_cons] at hSum
          omega
      simp only [hAll, hLast, ← hBytes, cmdComplete_bytes hFits]
      rfl
    · have hSplit : cmd.bytes = (front ++ back.take (n + 1)) ++ back.drop (n + 1) := by
        rw [List.append_assoc, List.take_append_drop]
        exact hBytes
      simp only [cmdComplete_of_append hFits hSplit hLast]
      refine ih hSplit hLast ?_ (List.length_pos_iff.mpr hLast)
      rw [List.length_drop]
      omega

end Listener

/-- The stream is that of these calls. Up to the first command that stops, every heart beat fits the
buffer, and no pass gets bytes of two commands. -/
structure Connection.Carries (c : Connection) (cmds : List Cmd) : Prop where
  stream : c.stream = cmds.flatMap Cmd.bytes
  fits : ∀ cmd ∈ untilStop cmds, cmd.Fits
  cuts : ∃ pieces rest, c.cuts = List.flatten pieces ++ rest ∧
    List.Forall₂ (fun cmd p => (p.map (· + 1)).sum = cmd.bytes.length) (untilStop cmds) pieces

def handledFor (cmds : List Cmd) (closed : Bool) : List Cmd :=
  if (untilStop cmds).any Cmd.stops || !closed then untilStop cmds
  else untilStop cmds ++ [.progDead]

def Cmd.restarts : Cmd → Bool
  | heartBeat _ | progDone => false
  | wantRestart | progDead => true

def handledOn : List (List Cmd × Bool) → List (List Cmd)
  | [] => []
  | c :: rest =>
    handledFor c.1 c.2 ::
      if (handledFor c.1 c.2).any Cmd.restarts then handledOn rest else []

theorem serve_commands (cmds : List Cmd) (handled : List Cmd) (pieces : List (List Nat))
    (rest : List Nat) (hFits : ∀ cmd ∈ untilStop cmds, cmd.Fits)
    (hPieces : List.Forall₂ (fun cmd p => (p.map (· + 1)).sum = cmd.bytes.length) (untilStop cmds)
      pieces) :
    ∃ m stream, Listener.serve ⟨[], handled, .running⟩ (cmds.flatMap Cmd.bytes)
        (pieces.flatten ++ rest) = (m, stream) ∧
      m.cmdBuf = [] ∧ m.handled = handled ++ untilStop cmds ∧
      if (untilStop cmds).any Cmd.stops then
        m.status = if (untilStop cmds).any Cmd.restarts then .restarted else .returned
      else m.status = .running ∧ stream = [] := by
  induction cmds generalizing handled pieces with
  | nil => exact ⟨_, _, Listener.serve_nil _ _, rfl, (List.append_nil _).symm, rfl, rfl⟩
  | cons cmd cmds ih =>
    rw [untilStop] at hFits hPieces ⊢
    cases hStops : cmd.stops with
    | true =>
      rw [hStops, if_pos rfl] at hFits hPieces
      obtain ⟨p, ps, hSum, hNil, rfl⟩ := List.forall₂_cons_left_iff.mp hPieces
      rw [List.forall₂_nil_left_iff] at hNil
      subst hNil
      have hServe := Listener.serve_command (hFits cmd (by simp)) p handled
        (List.nil_append cmd.bytes).symm cmd.bytes_ne_nil hSum (cmds.flatMap Cmd.bytes) rest
      have hEnd : ((⟨[], handled, .running⟩ : Listener).handle cmd).status =
          if cmd.restarts then .restarted else .returned := by
        cases cmd <;> first | rfl | cases hStops
      have hNot : ((⟨[], handled, .running⟩ : Listener).handle cmd).status ≠ .running := by
        rw [hEnd]
        split_ifs <;> decide
      rw [List.flatMap_cons, List.flatten_singleton, hServe, Listener.serve_stopped hNot]
      refine ⟨_, _, rfl, ?_, ?_, ?_⟩
      · cases cmd <;> rfl
      · cases cmd <;> rfl
      · simpa [hStops] using hEnd
    | false =>
      rw [hStops, if_neg Bool.false_ne_true] at hFits hPieces
      obtain ⟨p, ps, hSum, hRest, rfl⟩ := List.forall₂_cons_left_iff.mp hPieces
      obtain ⟨hHere, hFits'⟩ := List.forall_mem_cons.mp hFits
      have hServe := Listener.serve_command hHere p handled (List.nil_append cmd.bytes).symm
        cmd.bytes_ne_nil hSum (cmds.flatMap Cmd.bytes) (ps.flatten ++ rest)
      obtain ⟨m, stream, hRun, hBuf, hHandled, hStatus⟩ := ih (handled ++ [cmd]) ps hFits' hRest
      have hBeat : (⟨[], handled, .running⟩ : Listener).handle cmd =
          ⟨[], handled ++ [cmd], .running⟩ := by
        cases cmd <;> first | rfl | cases hStops
      have hNot : cmd.restarts = false := by
        cases cmd <;> first | rfl | cases hStops
      rw [List.flatMap_cons, List.flatten_cons, List.append_assoc, hServe, hBeat, hRun]
      refine ⟨m, stream, rfl, hBuf, ?_, ?_⟩
      · rw [hHandled, if_neg Bool.false_ne_true]
        simp
      · simpa [hStops, hNot] using hStatus

theorem serveConnection_spec {c : Connection} {cmds : List Cmd} (h : c.Carries cmds) :
    (serveConnection [] c).cmdBuf = [] ∧
      (serveConnection [] c).handled = handledFor cmds c.closed ∧
      ((serveConnection [] c).status = .restarted ↔
        (handledFor cmds c.closed).any Cmd.restarts) := by
  obtain ⟨pieces, rest, hCuts, hPieces⟩ := h.cuts
  obtain ⟨m, stream, hRun, hBuf, hHandled, hStatus⟩ :=
    serve_commands cmds [] pieces rest h.fits hPieces
  rw [List.nil_append] at hHandled
  have hNoRestart : (untilStop cmds).any Cmd.stops = false →
      (untilStop cmds).any Cmd.restarts = false := by
    rw [List.any_eq_false, List.any_eq_false]
    intro hNone cmd hCmd hRestarts
    refine hNone cmd hCmd ?_
    cases cmd <;> first | rfl | cases hRestarts
  simp only [serveConnection, h.stream, hCuts, hRun, handledFor]
  cases hStops : (untilStop cmds).any Cmd.stops with
  | true =>
    rw [hStops, if_pos rfl] at hStatus
    have hNot : m.status ≠ .running := by
      rw [hStatus]
      split_ifs <;> decide
    rw [if_neg fun hAll => hNot hAll.1, Bool.true_or, if_pos rfl, hStatus]
    refine ⟨hBuf, hHandled, ?_⟩
    split_ifs with hRestarts <;> simp [hRestarts]
  | false =>
    rw [hStops, if_neg Bool.false_ne_true] at hStatus
    obtain ⟨hRunning, rfl⟩ := hStatus
    cases hClosed : c.closed with
    | true =>
      rw [if_pos ⟨hRunning, rfl, rfl⟩, if_neg (by decide)]
      refine ⟨hBuf, ?_, ?_⟩
      · rw [Listener.onRecv, if_pos rfl, ← hHandled]
        rfl
      · simp [Listener.onRecv, Listener.handle, Cmd.restarts]
    | false =>
      rw [if_neg fun hAll => absurd hAll.2.2 Bool.false_ne_true, if_pos (by decide)]
      refine ⟨hBuf, hHandled, ?_⟩
      simp [hRunning, hNoRestart hStops]

/-- On every connection exactly the commands that were sent are handled, up to the first one that
stops. -/
theorem listen_handles (connections : List (Connection × List Cmd))
    (hCarries : ∀ c ∈ connections, c.1.Carries c.2) :
    listen [] (connections.map Prod.fst) =
      handledOn (connections.map fun c => (c.2, c.1.closed)) := by
  induction connections with
  | nil => rfl
  | cons c rest ih =>
    obtain ⟨hHere, hRest⟩ := List.forall_mem_cons.mp hCarries
    obtain ⟨hBuf, hHandled, hStatus⟩ := serveConnection_spec hHere
    simp only [List.map_cons, listen, handledOn, hBuf, hHandled, hStatus, ih hRest]

/-- A heart beat in two pieces, a restart, and a second connection. -/
theorem listen_handles_restart :
    listen [] [⟨(Cmd.heartBeat [7, 8]).bytes ++ Cmd.wantRestart.bytes, [2, 6, 3], true⟩,
        ⟨Cmd.progDone.bytes, [3], true⟩] =
      [[.heartBeat [7, 8], .wantRestart], [.progDone]] := by
  refine (listen_handles [(_, [.heartBeat [7, 8], .wantRestart]), (_, [.progDone])] ?_).trans
    (by decide)
  intro c hc
  rcases List.mem_cons.mp hc with rfl | hc
  · exact ⟨by decide, by decide, [[2, 6], [3]], [], rfl, by decide⟩
  · rw [List.mem_singleton.mp hc]
    exact ⟨by decide, by decide, [[3]], [], rfl, by decide⟩

/-- Bytes after a complete command are lost, and the bytes of a partial command are left to the next
connection. -/
theorem listen_loses :
    listen [] [⟨(Cmd.heartBeat []).bytes ++ Cmd.wantRestart.bytes, [11], false⟩] =
        [[.heartBeat []]] ∧
      listen [] [⟨(Cmd.heartBeat (List.replicate 4096 7)).bytes, [4095, 4095], false⟩] = [[]] ∧
      listen [] [⟨(Cmd.heartBeat (List.replicate 4089 7)).bytes, [4095, 4095], false⟩] =
        [[.progDead]] ∧
      listen [] [⟨[0], [0], true⟩, ⟨Cmd.wantRestart.bytes, [3], false⟩] = [[.progDead], []] := by
  decide +kernel

end Monitor

end Explode.Mcl
