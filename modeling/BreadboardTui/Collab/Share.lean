import BreadboardTui.Collab.RelayClient

/-!
# A shared session on its way to a guest

The host broadcasts every entry it appends, and answers the `hello` of a guest with a snapshot in
chunks. A guest ignores what comes before its snapshot is complete. It is told of a new connection
at once, while the frames of the old one may still be applied.

* `Share`, `step`: the host's socket, the relay, and a guest with its two chains.
* `written_append_queue`: the host's socket drops nothing while its buffer is not full.
-/

namespace BreadboardTui.Collab

/-! ### Frames -/

/-- The frames of the host, as far as the entries of the replica depend on them. -/
inductive HostFrame (E : Type) where
  | welcome (entryCount : ℕ)
  | chunk (entries : List E) (final : Bool)
  | entry (entry : E)
  /-- Events, states, and what else is sent. -/
  | other
  deriving DecidableEq, Repr

/-- The frame and the peer it is for; `none` is everyone. -/
abbrev Targeted (E : Type) : Type := Option ℕ × HostFrame E

/-- What a session is made of: the copy of an entry that is sent, where one is, and the size of a
copy as JSON. -/
structure Wire (J E : Type) where
  copy : J → Option E
  bytes : E → ℕ

def snapshotChunkBytes : ℕ := 512 * 1024

/-- The loops of `#sendSnapshotChunks`; `batch` has at least one entry, unless there is none. -/
def chunkLoop {E : Type} (bytes : E → ℕ) (batch : List E) (batchBytes : ℕ) :
    List E → List (HostFrame E)
  | [] => [.chunk batch true]
  | entry :: entries =>
    if batch ≠ [] ∧ snapshotChunkBytes < batchBytes + bytes entry then
      .chunk batch false :: chunkLoop bytes [entry] (bytes entry) entries
    else chunkLoop bytes (batch ++ [entry]) (batchBytes + bytes entry) entries

/-- The frames that answer a `hello`. -/
def welcomeFrames {E : Type} (bytes : E → ℕ) (entries : List E) : List (HostFrame E) :=
  .welcome entries.length :: chunkLoop bytes [] 0 entries

/-! ### A guest -/

structure PendingSnapshot (E : Type) where
  entryCount : ℕ
  entries : List E
  deriving DecidableEq, Repr

/-- What the frames change. -/
structure Mirror (E : Type) where
  welcomed : Bool := false
  pendingSnapshot : Option (PendingSnapshot E) := none
  replica : List E := []
  deriving DecidableEq, Repr

namespace Mirror

variable {E : Type}

/-- What is left to do for a frame: nothing, or to finalize a snapshot. -/
inductive Effect (E : Type) where
  | done (mirror : Mirror E)
  | finalize (mirror : Mirror E) (entries : List E)

/-- The handler of a frame up to its first `await`. -/
def begin (m : Mirror E) : HostFrame E → Effect E
  | .welcome entryCount =>
    if entryCount = 0 then .finalize { m with pendingSnapshot := none } []
    else .done { m with pendingSnapshot := some ⟨entryCount, []⟩ }
  | .chunk entries final =>
    match m.pendingSnapshot with
    | none => .done m
    | some pending =>
      let all := pending.entries ++ entries
      if final ∨ pending.entryCount ≤ all.length then
        .finalize { m with pendingSnapshot := none } all
      else .done { m with pendingSnapshot := some { pending with entries := all } }
  | .entry entry => .done (if m.welcomed then { m with replica := m.replica ++ [entry] } else m)
  | .other => .done m

/-- The end of `#finalizeSnapshot`. -/
def finish (m : Mirror E) (entries : List E) : Mirror E :=
  { m with welcomed := true, replica := entries }

/-- What a frame does in the end. -/
def applyFrame (m : Mirror E) (frame : HostFrame E) : Mirror E :=
  match m.begin frame with
  | .done m => m
  | .finalize m entries => m.finish entries

end Mirror

structure Guest (E : Type) where
  ws : Option WebSocket := none
  /-- What the relay has delivered on the connection. -/
  inbound : List (HostFrame E) := []
  /-- `#recvChain`: frames that are not decrypted yet, with their connection. -/
  recvChain : List (ℕ × HostFrame E) := []
  applyChain : List (HostFrame E) := []
  /-- The snapshot that is being finalized. -/
  finalizing : Option (List E) := none
  mirror : Mirror E := {}
  deriving DecidableEq, Repr

/-! ### The system -/

structure Share (J E : Type) where
  journal : List J := []
  host : CollabSocket (Targeted E) := {}
  hostConnections : ℕ := 0
  /-- All frames that were passed to `send`. -/
  sent : List (Targeted E) := []
  /-- What was put on earlier connections of the host, and on the last one. -/
  earlier : List (Targeted E) := []
  written : List (Targeted E) := []
  /-- What the relay has not forwarded yet. -/
  relay : List (Targeted E) := []
  /-- How many peer ids were given out. -/
  peers : ℕ := 0
  guest : Guest E := {}
  deriving DecidableEq, Repr

inductive ShareAction (J : Type) where
  | append (entry : J)
  /-- Another frame, to one peer or to everyone. -/
  | sendOther (target : Option ℕ)
  /-- The host handles the `hello` of a peer. -/
  | hello (peer : ℕ)
  /-- Another guest connects. -/
  | join
  | hostConnect
  | hostStartSend (amount : ℕ → ℕ)
  | hostFinishSend (amount : ℕ → ℕ)
  | hostRunDrain (amount : ℕ → ℕ)
  | hostFireDrainTimer
  | hostFireRetryTimer
  | hostHandleOpen (amount : ℕ → ℕ)
  | hostBeginClose
  | hostHandleClose
  /-- The relay forwards the next frame to those it is for. -/
  | forward
  | guestOpenSocket
  | guestOpen
  | guestClose
  | guestReceive
  | guestDecrypt
  | guestApply
  | guestFinalize

namespace Share

variable {J E : Type}

/-- The entries that are sent. -/
def wireEntries (w : Wire J E) (s : Share J E) : List E := s.journal.filterMap w.copy

/-- `send`, one frame after another. -/
def sendAll (s : Share J E) (frames : List (Targeted E)) : Share J E :=
  { s with host := frames.foldl CollabSocket.send s.host, sent := s.sent ++ frames }

/-- The host's socket after a job, and what the job has written to the connection. -/
def writeHost (s : Share J E) (result : CollabSocket (Targeted E) × List (Targeted E)) :
    Share J E :=
  { s with
    host := result.1
    written := s.written ++ result.2
    relay := s.relay ++ result.2 }

/-- A new connection of the host. -/
def openHost (s : Share J E) (host : CollabSocket (Targeted E)) : Share J E :=
  { s with
    host
    hostConnections := s.hostConnections + 1
    earlier := s.earlier ++ s.written
    written := [] }

/-- `socket.onFrame` for the first frame of the chain, up to its first `await`. -/
def beginApply (g : Guest E) (frame : HostFrame E) (chain : List (HostFrame E)) : Guest E :=
  match g.mirror.begin frame with
  | .done mirror => { g with applyChain := chain, mirror }
  | .finalize mirror entries => { g with applyChain := chain, mirror, finalizing := some entries }

/-- The relay passes a frame on to the guest, if it is connected and the frame is for it. -/
def deliver (g : Guest E) (frame : Targeted E) : Guest E :=
  match g.ws with
  | some ⟨id, .opened⟩ =>
    if frame.1 = none ∨ frame.1 = some id then { g with inbound := g.inbound ++ [frame.2] } else g
  | _ => g

def stepGuest (g : Guest E) (peers : ℕ) : ShareAction J → Option (Guest E)
  | .guestOpenSocket =>
    if g.ws.isSome then none else some { g with ws := some ⟨peers + 1, .connecting⟩ }
  | .guestOpen =>
    match g.ws with
    | some ⟨id, .connecting⟩ =>
      -- `socket.onOpen`
      some { g with
        ws := some ⟨id, .opened⟩
        inbound := []
        mirror := { g.mirror with welcomed := false, pendingSnapshot := none } }
    | _ => none
  | .guestClose => if g.ws.isNone then none else some { g with ws := none, inbound := [] }
  | .guestReceive =>
    match g.ws, g.inbound with
    | some ⟨id, .opened⟩, frame :: inbound =>
      some { g with inbound, recvChain := g.recvChain ++ [(id, frame)] }
    | _, _ => none
  | .guestDecrypt =>
    match g.recvChain with
    | [] => none
    | (id, frame) :: recvChain =>
      -- a frame of an old connection is dropped
      if g.ws.map (·.id) = some id then
        some { g with recvChain, applyChain := g.applyChain ++ [frame] }
      else some { g with recvChain }
  | .guestApply =>
    match g.finalizing, g.applyChain with
    | none, frame :: chain => some (beginApply g frame chain)
    | _, _ => none
  | .guestFinalize => g.finalizing.map fun entries =>
      { g with finalizing := none, mirror := g.mirror.finish entries }
  | _ => none

def step (w : Wire J E) (s : Share J E) : ShareAction J → Option (Share J E)
  | .append entry =>
    let appended := { s with journal := s.journal ++ [entry] }
    match w.copy entry with
    | some copy => some (appended.sendAll [(none, .entry copy)])
    | none => some appended
  | .sendOther target =>
    if target.all fun peer => peer ≤ s.peers then some (s.sendAll [(target, .other)]) else none
  | .hello peer =>
    -- a peer says hello on an open connection
    if peer = 0 ∨ s.peers < peer ∨ s.guest.ws = some ⟨peer, .connecting⟩ then none
    else some (s.sendAll ((welcomeFrames w.bytes (s.wireEntries w)).map (some peer, ·)))
  | .join => some { s with peers := s.peers + 1 }
  | .hostConnect => (s.host.connect s.hostConnections).map s.openHost
  | .hostStartSend amount => (s.host.startSend amount).map s.writeHost
  | .hostFinishSend amount => (s.host.finishSend amount).map s.writeHost
  | .hostRunDrain amount => (s.host.runDrain amount).map s.writeHost
  | .hostFireDrainTimer => s.host.fireDrainTimer.map fun host => { s with host }
  | .hostFireRetryTimer => (s.host.fireRetryTimer s.hostConnections).map s.openHost
  | .hostHandleOpen amount => (s.host.handleOpen amount).map s.writeHost
  | .hostBeginClose => s.host.beginClose.map fun host => { s with host }
  | .hostHandleClose => (s.host.handleClose false).map fun host => { s with host }
  | .forward =>
    match s.relay with
    | [] => none
    | frame :: relay => some { s with relay, guest := deliver s.guest frame }
  | .guestOpenSocket => (stepGuest (J := J) s.guest s.peers .guestOpenSocket).map fun guest =>
      { s with guest, peers := s.peers + 1 }
  | action => (stepGuest s.guest s.peers action).map fun guest => { s with guest }

end Share

end BreadboardTui.Collab
