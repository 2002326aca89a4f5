import BreadboardTui.Collab.RelayClient
import BreadboardTui.Hashline.Tokenizer
import BreadboardTui.Js.Collections

/-!
# The prompts of a guest

A guest introduces itself with a `hello` on every connection; the host executes the prompts of a
peer whose `hello` held the write token, and answers those of other peers with an error. The relay
gives every connection a peer id of its own and forwards its frames in order.

* `Room`, `step`: the socket of the guest, the frames on their way, and the host.
-/

namespace BreadboardTui.Collab

open List Option

open Hashline (Units)

/-! ### The room -/

inductive GuestFrame where
  | hello (writeToken : Option Units)
  /-- The frame of a call of `sendPrompt`, with the number of the call. -/
  | prompt (call : ℕ) (text : Units)
  | abort
  deriving DecidableEq, Repr

namespace GuestFrame

def isHello : GuestFrame → Bool
  | hello _ => true
  | prompt _ _ | abort => false

def isInput (frame : GuestFrame) : Bool := !frame.isHello

def call? : GuestFrame → Option ℕ
  | prompt call _ => some call
  | hello _ | abort => none

end GuestFrame

/-- What the host does with a frame. -/
inductive Reply where
  | welcomed
  | executed
  /-- `#rejectReadOnly`: the error "… is disabled on a read-only link". -/
  | rejected
  deriving DecidableEq, Repr

/-- The write token of the host, and the one of the guest's link. -/
structure Tokens where
  host : Units
  guest : Option Units

structure Room where
  guest : CollabSocket GuestFrame := {}
  /-- How often `sendPrompt` was called. -/
  calls : ℕ := 0
  /-- How many connections were opened; their numbers are the peer ids. -/
  connections : ℕ := 0
  /-- What was written to each connection. -/
  sent : ℕ → List GuestFrame := fun _ => []
  /-- How many frames of each peer the host's socket has received. -/
  arrived : ℕ → ℕ := fun _ => 0
  /-- The peers the relay has reported as left. -/
  left : ℕ → Bool := fun _ => false
  /-- `#peers` of the host: who can write. -/
  peers : JsMap ℕ Bool := []
  /-- `#recvChain` of the host's socket: frames that are not decrypted yet. -/
  recvChain : List (ℕ × GuestFrame) := []
  /-- The frames the host has handled. -/
  handled : List (ℕ × GuestFrame × Reply) := []

/-- What can happen. Readings of `bufferedAmount` come with the action. -/
inductive Action where
  | connect
  | sendPrompt (text : Units)
  | sendAbort
  | startSend (amount : ℕ → ℕ)
  | finishSend (amount : ℕ → ℕ)
  | runDrain (amount : ℕ → ℕ)
  | fireDrainTimer
  | fireRetryTimer
  | handleOpen (amount : ℕ → ℕ)
  | beginClose
  | handleClose (fatal : Bool)
  | close
  /-- The next frame of a peer reaches the host's socket. -/
  | arrive (peer : ℕ)
  /-- The relay reports that a peer is lost; no more of its frames arrive. -/
  | peerLeft (peer : ℕ)
  /-- The host handles the first frame of its `#recvChain`. -/
  | handle

/-- An action of the relay or of the host. -/
def Action.isOfHost : Action → Bool
  | .arrive _ | .peerLeft _ | .handle => true
  | _ => false

namespace Room

/-- The socket after a job, and what the job has written to the connection. -/
def write (r : Room) (result : CollabSocket GuestFrame × List GuestFrame) : Room :=
  { r with
    guest := result.1
    sent := match r.guest.ws with
      | some ws => Function.update r.sent ws.id (r.sent ws.id ++ result.2)
      | none => r.sent }

/-- The `onOpen` of the guest: introduce ourselves. -/
def onOpen (t : Tokens) (r : Room) : Room :=
  { r with guest := r.guest.send (.hello t.guest) }

end Room

def verifyWriteToken (expected : Units) (token : Option Units) : Bool := token = some expected

/-- `#handleFrame`: the peers after a frame, and what is done with it. -/
def handleFrame (t : Tokens) (peers : JsMap ℕ Bool) (peer : ℕ) :
    GuestFrame → JsMap ℕ Bool × Reply
  | .hello writeToken => (peers.set peer (verifyWriteToken t.host writeToken), .welcomed)
  | .prompt _ _ | .abort =>
    (peers, if JsMap.get peers peer = some true then .executed else .rejected)

def step (t : Tokens) (r : Room) : Action → Option Room
  | .connect => do
    let guest ← r.guest.connect r.connections
    some { r with guest, connections := r.connections + 1 }
  | .sendPrompt text =>
    some { r with guest := r.guest.send (.prompt r.calls text), calls := r.calls + 1 }
  | .sendAbort => some { r with guest := r.guest.send .abort }
  | .startSend amount => (r.guest.startSend amount).map r.write
  | .finishSend amount => (r.guest.finishSend amount).map r.write
  | .runDrain amount => (r.guest.runDrain amount).map r.write
  | .fireDrainTimer => r.guest.fireDrainTimer.map fun guest => { r with guest }
  | .fireRetryTimer => do
    let guest ← r.guest.fireRetryTimer r.connections
    some { r with guest, connections := r.connections + 1 }
  | .handleOpen amount => (r.guest.handleOpen amount).map fun result => (r.write result).onOpen t
  | .beginClose => r.guest.beginClose.map fun guest => { r with guest }
  | .handleClose fatal => (r.guest.handleClose fatal).map fun guest => { r with guest }
  | .close => some { r with guest := r.guest.close }
  | .arrive peer =>
    if r.left peer then none
    else
      ((r.sent peer)[r.arrived peer]?).map fun frame =>
        { r with
          arrived := Function.update r.arrived peer (r.arrived peer + 1)
          recvChain := r.recvChain ++ [(peer, frame)] }
  | .peerLeft peer =>
    some { r with left := Function.update r.left peer true, peers := r.peers.delete peer }
  | .handle =>
    match r.recvChain with
    | [] => none
    | (peer, frame) :: rest =>
      let result := handleFrame t r.peers peer frame
      some { r with
        peers := result.1
        recvChain := rest
        handled := r.handled ++ [(peer, frame, result.2)] }

/-! ### What a step does -/

namespace Room

/-- The frames of a peer that have reached the host, in the order in which they did. -/
def arrivals (r : Room) (peer : ℕ) : List GuestFrame :=
  ((r.handled.filter fun entry => entry.1 = peer).map fun entry => entry.2.1) ++
    (r.recvChain.filter fun entry => entry.1 = peer).map Prod.snd

/-- All that a step of the guest does: it writes frames from the front of the queue to an open
connection, and adds a frame to its end. -/
structure GuestMove (t : Tokens) (r r' : Room) (peer : ℕ) (written added : List GuestFrame) :
    Prop where
  sent_eq : ∀ p, r'.sent p = r.sent p ++ if p = peer then written else []
  sublist : (written ++ r'.guest.queue).Sublist (r.guest.queue ++ added)
  isOpen : written ≠ [] → r'.guest.ws = some ⟨peer, .opened⟩
  calls_le : r.calls ≤ r'.calls
  added_eq : added = [] ∨ added = [.hello t.guest] ∨ added = [.abort] ∨
    ∃ text, added = [.prompt r.calls text] ∧ r'.calls = r.calls + 1
  connections_le : r.connections ≤ r'.connections
  closed_ws : r'.guest.closed = true → r'.guest.ws = none
  ws_lt : ∀ ws, r'.guest.ws = some ws → ws.id < r'.connections
  /-- An open connection was open before, or a `hello` is added for it. -/
  opened : ∀ id, r'.guest.ws = some ⟨id, .opened⟩ →
    (written ++ r'.guest.queue).head? = (r.guest.queue ++ added).head? ∧
      (r.guest.ws = some ⟨id, .opened⟩ ∨
        r.guest.ws = some ⟨id, .connecting⟩ ∧ added = [.hello t.guest])
  connecting : ∀ id, r'.guest.ws = some ⟨id, .connecting⟩ →
    r.guest.ws = some ⟨id, .connecting⟩ ∨ id = r.connections

/-- What holds of the guest and of what it has sent, in every run. -/
structure Wired (t : Tokens) (r : Room) : Prop where
  closed_ws : r.guest.closed = true → r.guest.ws = none
  ws_lt : ∀ ws, r.guest.ws = some ws → ws.id < r.connections
  unopened : ∀ p, r.connections ≤ p → r.sent p = []
  connecting : ∀ id, r.guest.ws = some ⟨id, .connecting⟩ → r.sent id = []
  token : ∀ p token, .hello token ∈ r.sent p ++ r.guest.queue → token = t.guest
  called : ∀ p call, call ∈ (r.sent p ++ r.guest.queue).filterMap GuestFrame.call? →
    call < r.calls
  nodup : ∀ p, ((r.sent p ++ r.guest.queue).filterMap GuestFrame.call?).Nodup
  /-- No call is sent on two connections. -/
  apart : ∀ p p' call, call ∈ (r.sent p).filterMap GuestFrame.call? →
    call ∈ (r.sent p').filterMap GuestFrame.call? → p = p'

theorem Wired.start (t : Tokens) : Wired t {} := by
  refine ⟨?_, ?_, ?_, ?_, ?_, ?_, ?_, ?_⟩ <;> simp [CollabSocket.queue]

variable {t : Tokens} {r r' : Room}

variable {s' : CollabSocket GuestFrame}

/-- A step that neither writes nor adds a frame. -/
theorem GuestMove.idle {n : ℕ} (hn : r.connections ≤ n)
    (hqueue : s'.queue.Sublist r.guest.queue) (hclosed : s'.closed = true → s'.ws = none)
    (hlt : ∀ ws, s'.ws = some ws → ws.id < n)
    (hopened : ∀ id, s'.ws = some ⟨id, .opened⟩ →
      s'.queue = r.guest.queue ∧ r.guest.ws = some ⟨id, .opened⟩)
    (hconnecting : ∀ id, s'.ws = some ⟨id, .connecting⟩ →
      r.guest.ws = some ⟨id, .connecting⟩ ∨ id = r.connections) :
    GuestMove t r { r with guest := s', connections := n } 0 [] [] where
  sent_eq p := by rw [ite_self, append_nil]
  sublist := by rwa [nil_append, append_nil]
  isOpen h := absurd rfl h
  calls_le := le_rfl
  added_eq := .inl rfl
  connections_le := hn
  closed_ws := hclosed
  ws_lt := hlt
  opened id h := by
    obtain ⟨hsame, hws⟩ := hopened id h
    exact ⟨by rw [nil_append, append_nil, hsame], .inl hws⟩
  connecting := hconnecting

/-- A step that adds a frame and does nothing else. -/
theorem GuestMove.add (hw : Wired t r) {frame : GuestFrame} {n : ℕ} (hn : r.calls ≤ n)
    (hframe : frame = .abort ∨ ∃ text, frame = .prompt r.calls text ∧ n = r.calls + 1) :
    GuestMove t r { r with guest := r.guest.send frame, calls := n } 0 [] [frame] where
  sent_eq p := by rw [ite_self, append_nil]
  sublist := by rw [nil_append, CollabSocket.queue_send]
  isOpen h := absurd rfl h
  calls_le := hn
  added_eq := by
    rcases hframe with rfl | ⟨text, rfl, rfl⟩
    · exact .inr (.inr (.inl rfl))
    · exact .inr (.inr (.inr ⟨text, rfl, rfl⟩))
  connections_le := le_rfl
  closed_ws := hw.closed_ws
  ws_lt := hw.ws_lt
  opened id h := by
    rw [nil_append, CollabSocket.queue_send]
    exact ⟨rfl, .inl h⟩
  connecting id h := .inl h

theorem sent_write {ws : WebSocket} (h : r.guest.ws = some ws)
    (result : CollabSocket GuestFrame × List GuestFrame) (p : ℕ) :
    (r.write result).sent p = r.sent p ++ if p = ws.id then result.2 else [] := by
  simp only [write, h, Function.update_apply]
  split
  · next hp => rw [hp]
  · rw [append_nil]

variable {written : List GuestFrame}

/-- A job of the send chain. -/
theorem GuestMove.flow (hw : Wired t r) (h : r.guest.Flow s' written) :
    ∃ peer, GuestMove t r (r.write (s', written)) peer written [] := by
  have hopened : ∀ id, s'.ws = some ⟨id, .opened⟩ →
      (written ++ s'.queue).head? = (r.guest.queue ++ []).head? ∧
        r.guest.ws = some ⟨id, .opened⟩ := by
    intro id hws
    rw [h.ws_eq] at hws
    have hclosed : r.guest.closed = false := by
      refine Bool.eq_false_of_not_eq_true fun hclosed => ?_
      rw [hw.closed_ws hclosed] at hws
      cases hws
    rw [append_nil]
    exact ⟨h.head hclosed, hws⟩
  have hrest (peer : ℕ) (hsent : ∀ p, (r.write (s', written)).sent p =
      r.sent p ++ if p = peer then written else [])
      (hisOpen : written ≠ [] → r.guest.ws = some ⟨peer, .opened⟩) :
      GuestMove t r (r.write (s', written)) peer written [] := by
    refine ⟨hsent, ?_, fun hne => h.ws_eq.trans (hisOpen hne), le_rfl, .inl rfl, le_rfl, ?_, ?_,
      fun id hws => ⟨(hopened id hws).1, .inl (hopened id hws).2⟩, fun id hws => .inl ?_⟩
    · rw [append_nil]
      exact h.sublist
    · intro hclosed
      exact h.ws_eq.trans (hw.closed_ws (h.closed_eq.symm.trans hclosed))
    · intro ws hws
      exact hw.ws_lt ws (h.ws_eq.symm.trans hws)
    · exact h.ws_eq.symm.trans hws
  cases hws : r.guest.ws with
  | none =>
    -- nothing is written without a connection
    have hnil : written = [] := by
      by_contra hne
      have hopen := h.isOpen hne
      rw [CollabSocket.isOpen, hws] at hopen
      cases hopen
    refine ⟨0, hrest 0 (fun p => ?_) fun hne => absurd hnil hne⟩
    simp [write, hws, hnil]
  | some ws =>
    refine ⟨ws.id, hrest ws.id (sent_write hws _) fun hne => ?_⟩
    have hopen := h.isOpen hne
    rw [CollabSocket.isOpen, hws, any_some, decide_eq_true_iff] at hopen
    rw [hws, ← hopen]

/-- A connection opens: what waits is written, and then a `hello` is added. -/
theorem GuestMove.handleOpen (hw : Wired t r) {amount : ℕ → ℕ}
    (h : r.guest.handleOpen amount = some (s', written)) :
    ∃ peer, r.guest.ws = some ⟨peer, .connecting⟩ ∧
      GuestMove t r ((r.write (s', written)).onOpen t) peer written [.hello t.guest] := by
  obtain ⟨id, hws, hws', hclosed, hqueue⟩ := CollabSocket.handleOpen_eq_some h
  have hqueue' : written ++ (s'.send (.hello t.guest)).queue =
      r.guest.queue ++ [.hello t.guest] := by
    rw [CollabSocket.queue_send, ← append_assoc, hqueue]
  refine ⟨id, hws, sent_write hws _, ?_, fun _ => hws', le_rfl, .inr (.inl rfl), le_rfl, ?_, ?_, ?_,
    ?_⟩
  · exact hqueue' ▸ List.Sublist.refl _
  · intro hc
    have hnone := hw.closed_ws (hclosed.symm.trans hc)
    rw [hws] at hnone
    cases hnone
  · intro ws hsome
    have hsame : some ws = some ⟨id, .opened⟩ := hsome.symm.trans hws'
    injection hsame with hsame
    have hlt := hw.ws_lt _ hws
    rw [hsame]
    exact hlt
  · intro id' hopen
    have hsame : some (⟨id', .opened⟩ : WebSocket) = some ⟨id, .opened⟩ := hopen.symm.trans hws'
    injection hsame with hsame
    injection hsame with hid
    exact ⟨congrArg List.head? hqueue', .inr ⟨hid ▸ hws, rfl⟩⟩
  intro id' hconnecting
  have hsame : some (⟨id', .connecting⟩ : WebSocket) = some ⟨id, .opened⟩ :=
    hconnecting.symm.trans hws'
  injection hsame with hsame
  injection hsame with _ hstate
  cases hstate

theorem GuestMove.openSocket
    (hws : s'.ws = some ⟨r.connections, .connecting⟩) (hclosed : s'.closed = false)
    (hqueue : s'.queue = r.guest.queue) :
    GuestMove t r { r with guest := s', connections := r.connections + 1 } 0 [] [] := by
  refine GuestMove.idle (Nat.le_succ _) (hqueue ▸ List.Sublist.refl _) ?_ ?_ ?_ ?_
  · intro h
    rw [hclosed] at h
    cases h
  · intro ws h
    rw [hws] at h
    injection h with h
    rw [← h]
    exact Nat.lt_succ_self _
  · intro id h
    rw [hws] at h
    injection h with h
    injection h with _ h
    cases h
  intro id h
  rw [hws] at h
  injection h with h
  injection h with h
  exact .inr h.symm

theorem GuestMove.lost (hws : s'.ws = none) (hqueue : s'.queue.Sublist r.guest.queue) :
    GuestMove t r { r with guest := s' } 0 [] [] := by
  refine GuestMove.idle le_rfl hqueue (fun _ => hws) ?_ ?_ ?_
  · intro ws h
    rw [hws] at h
    cases h
  · intro id h
    rw [hws] at h
    cases h
  intro id h
  rw [hws] at h
  cases h

/-- A step that leaves the connection and the queue as they are. -/
theorem GuestMove.same (hw : Wired t r) {n : ℕ}
    (hn : r.connections ≤ n) (hws : s'.ws = r.guest.ws) (hclosed : s'.closed = r.guest.closed)
    (hqueue : s'.queue = r.guest.queue) :
    GuestMove t r { r with guest := s', connections := n } 0 [] [] := by
  refine GuestMove.idle hn (hqueue ▸ List.Sublist.refl _) ?_ ?_ ?_ ?_
  · intro h
    rw [hws]
    exact hw.closed_ws (hclosed.symm.trans h)
  · intro ws h
    exact lt_of_lt_of_le (hw.ws_lt ws (hws.symm.trans h)) hn
  · exact fun id h => ⟨hqueue, hws.symm.trans h⟩
  · exact fun id h => .inl (hws.symm.trans h)

theorem GuestMove.closing (hw : Wired t r) (h : r.guest.beginClose = some s') :
    GuestMove t r { r with guest := s' } 0 [] [] := by
  obtain ⟨ws, hws, hws', hclosed, hqueue⟩ := CollabSocket.beginClose_eq_some h
  refine GuestMove.idle le_rfl (hqueue ▸ List.Sublist.refl _) ?_ ?_ ?_ ?_
  · intro h
    rw [hw.closed_ws (hclosed.symm.trans h)] at hws
    cases hws
  · intro ws₁ h
    rw [hws'] at h
    cases h
    exact hw.ws_lt ws hws
  · intro id h
    rw [hws'] at h
    cases some.inj h
  intro id h
  rw [hws'] at h
  cases some.inj h

/-- What the host keeps, and what has come to it. -/
def hostPart (r : Room) : (ℕ → ℕ) × (ℕ → Bool) × JsMap ℕ Bool × List (ℕ × GuestFrame) ×
    List (ℕ × GuestFrame × Reply) :=
  (r.arrived, r.left, r.peers, r.recvChain, r.handled)

/-- What the guest keeps, and what has come from it. -/
def guestPart (r : Room) : CollabSocket GuestFrame × ℕ × ℕ × (ℕ → List GuestFrame) :=
  (r.guest, r.calls, r.connections, r.sent)

/-- A step is one of the guest, which leaves the host as it is, or the other way round. -/
theorem step_cases (hw : Wired t r) {a : Action} (h : step t r a = some r') :
    (r'.hostPart = r.hostPart ∧ ∃ peer written added, GuestMove t r r' peer written added ∧
      (added = [.hello t.guest] → ∃ amount, a = .handleOpen amount)) ∨
    (a.isOfHost = true ∧ r'.guestPart = r.guestPart) := by
  have hflow {result : CollabSocket GuestFrame × List GuestFrame}
      (hres : r.guest.Flow result.1 result.2) (hr : r.write result = r') :
      r'.hostPart = r.hostPart ∧ ∃ peer written added, GuestMove t r r' peer written added ∧
        (added = [.hello t.guest] → ∃ amount, a = .handleOpen amount) := by
    obtain ⟨peer, hmove⟩ := GuestMove.flow hw hres
    rw [← hr]
    exact ⟨rfl, peer, _, _, hmove, fun hnil => by cases hnil⟩
  have hidle {s' : CollabSocket GuestFrame} {n : ℕ}
      (hmove : GuestMove t r { r with guest := s', connections := n } 0 [] [])
      (hr : { r with guest := s', connections := n } = r') :
      r'.hostPart = r.hostPart ∧ ∃ peer written added, GuestMove t r r' peer written added ∧
        (added = [.hello t.guest] → ∃ amount, a = .handleOpen amount) := by
    rw [← hr]
    exact ⟨rfl, 0, [], [], hmove, fun hnil => by cases hnil⟩
  cases a with
  | connect =>
    obtain ⟨guest, hguest, h⟩ := bind_eq_some_iff.mp h
    obtain ⟨hws, hclosed, hqueue⟩ := CollabSocket.connect_eq_some hguest
    exact .inl (hidle (.openSocket hws hclosed hqueue) (some.inj h))
  | sendPrompt text =>
    cases h
    refine .inl ⟨rfl, 0, [], [_], GuestMove.add hw (Nat.le_succ _) (.inr ⟨text, rfl, rfl⟩), ?_⟩
    intro hhello
    cases hhello
  | sendAbort =>
    cases h
    refine .inl ⟨rfl, 0, [], [_], GuestMove.add hw le_rfl (.inl rfl), ?_⟩
    intro hhello
    cases hhello
  | startSend =>
    obtain ⟨result, hresult, h⟩ := map_eq_some_iff.mp h
    exact .inl (hflow (CollabSocket.flow_startSend hresult) h)
  | finishSend =>
    obtain ⟨result, hresult, h⟩ := map_eq_some_iff.mp h
    exact .inl (hflow (CollabSocket.flow_finishSend hresult) h)
  | runDrain =>
    obtain ⟨result, hresult, h⟩ := map_eq_some_iff.mp h
    exact .inl (hflow (CollabSocket.flow_runDrain hresult) h)
  | fireDrainTimer =>
    obtain ⟨guest, hguest, h⟩ := map_eq_some_iff.mp h
    obtain ⟨hqueue, hws, hclosed⟩ := CollabSocket.queue_fireDrainTimer hguest
    exact .inl (hidle (.same hw le_rfl hws hclosed hqueue) h)
  | fireRetryTimer =>
    obtain ⟨guest, hguest, h⟩ := bind_eq_some_iff.mp h
    obtain ⟨hclosed, hqueue, ⟨-, hws⟩ | ⟨hopen, hws⟩⟩ := CollabSocket.fireRetryTimer_eq_some hguest
    · exact .inl (hidle (.same hw (Nat.le_succ _) hws hclosed hqueue) (some.inj h))
    · exact .inl (hidle (.openSocket hws (hclosed.trans hopen) hqueue) (some.inj h))
  | handleOpen amount =>
    obtain ⟨result, hresult, h⟩ := map_eq_some_iff.mp h
    obtain ⟨peer, -, hmove⟩ := GuestMove.handleOpen hw hresult
    rw [← h]
    exact .inl ⟨rfl, peer, _, _, hmove, fun _ => ⟨amount, rfl⟩⟩
  | beginClose =>
    obtain ⟨guest, hguest, h⟩ := map_eq_some_iff.mp h
    exact .inl (hidle (.closing hw hguest) h)
  | handleClose =>
    obtain ⟨guest, hguest, h⟩ := map_eq_some_iff.mp h
    obtain ⟨hws, hqueue⟩ := CollabSocket.handleClose_eq_some hguest
    exact .inl (hidle (.lost hws hqueue) h)
  | close =>
    refine .inl (hidle (.lost rfl ?_) (some.inj h))
    exact CollabSocket.sublist_queue_of_pendingSends rfl rfl rfl
  | arrive =>
    rw [step] at h
    split at h
    · cases h
    obtain ⟨frame, -, h⟩ := map_eq_some_iff.mp h
    rw [← h]
    exact .inr ⟨rfl, rfl⟩
  | peerLeft =>
    cases h
    exact .inr ⟨rfl, rfl⟩
  | handle =>
    rw [step] at h
    split at h
    · cases h
    cases h
    exact .inr ⟨rfl, rfl⟩

/-! ### What holds in every run -/

variable {peer : ℕ} {added : List GuestFrame}

/-- A connection has sent what it had sent, and frames of the queue. -/
theorem GuestMove.sublist_all (hm : GuestMove t r r' peer written added) (p : ℕ) :
    (r'.sent p ++ r'.guest.queue).Sublist (r.sent p ++ r.guest.queue ++ added) := by
  rw [hm.sent_eq, append_assoc, append_assoc]
  refine List.Sublist.append_left ?_ _
  split
  · exact hm.sublist
  · exact (sublist_append_right _ _).trans hm.sublist

theorem GuestMove.call_of_added (hm : GuestMove t r r' peer written added) {call : ℕ}
    (h : call ∈ added.filterMap GuestFrame.call?) : call = r.calls ∧ r'.calls = r.calls + 1 := by
  rcases hm.added_eq with heq | heq | heq | ⟨text, heq, hn⟩ <;> rw [heq] at h
  · cases h
  · cases h
  · cases h
  · exact ⟨mem_singleton.mp h, hn⟩

theorem GuestMove.nodup_added
    (hm : GuestMove t r r' peer written added) : (added.filterMap GuestFrame.call?).Nodup := by
  rcases hm.added_eq with heq | heq | heq | ⟨text, heq, hn⟩ <;> rw [heq]
  · exact nodup_nil
  · exact nodup_nil
  · exact nodup_nil
  · exact nodup_singleton _

theorem Wired.apart_move (hw : Wired t r) (hm : GuestMove t r r' peer written added) {p call : ℕ}
    (hwritten : call ∈ written.filterMap GuestFrame.call?)
    (hsent : call ∈ (r.sent p).filterMap GuestFrame.call?) : False := by
  obtain ⟨f, hf, hcall⟩ := mem_filterMap.mp hwritten
  rcases mem_append.mp (hm.sublist.subset (mem_append_left _ hf)) with hf | hf
  · -- the frame was in the queue, so its call was not sent before
    have hnodup := hw.nodup p
    rw [filterMap_append, nodup_append] at hnodup
    exact hnodup.2.2 call hsent call (mem_filterMap.mpr ⟨f, hf, hcall⟩) rfl
  obtain ⟨rfl, -⟩ := hm.call_of_added (mem_filterMap.mpr ⟨f, hf, hcall⟩)
  have hlt := hw.called p r.calls (by
    rw [filterMap_append]
    exact mem_append_left _ hsent)
  exact absurd hlt (lt_irrefl _)

theorem Wired.move (hw : Wired t r) (hm : GuestMove t r r' peer written added) : Wired t r' where
  closed_ws := hm.closed_ws
  ws_lt := hm.ws_lt
  unopened p hp := by
    rw [hm.sent_eq, hw.unopened p (hm.connections_le.trans hp), nil_append]
    split
    · next heq =>
      by_contra hne
      have hlt := hm.ws_lt _ (hm.isOpen hne)
      dsimp only at hlt
      omega
    · rfl
  connecting id h := by
    have hnil : written = [] := by
      by_contra hne
      have hopen := (hm.isOpen hne).symm.trans h
      injection hopen with hopen
      injection hopen with _ hstate
      cases hstate
    rw [hm.sent_eq, hnil, ite_self, append_nil]
    rcases hm.connecting id h with hold | rfl
    · exact hw.connecting id hold
    · exact hw.unopened _ le_rfl
  token p token h := by
    rcases mem_append.mp ((hm.sublist_all p).subset h) with h | h
    · exact hw.token p token h
    rcases hm.added_eq with heq | heq | heq | ⟨text, heq, -⟩ <;> rw [heq] at h
    · cases h
    · injection mem_singleton.mp h
    · cases mem_singleton.mp h
    · cases mem_singleton.mp h
  called p call h := by
    have hmem := ((hm.sublist_all p).filterMap GuestFrame.call?).subset h
    rw [filterMap_append] at hmem
    rcases mem_append.mp hmem with hmem | hmem
    · exact lt_of_lt_of_le (hw.called p call hmem) hm.calls_le
    obtain ⟨rfl, hn⟩ := hm.call_of_added hmem
    omega
  nodup p := by
    refine List.Nodup.sublist ((hm.sublist_all p).filterMap GuestFrame.call?) ?_
    rw [filterMap_append, nodup_append]
    refine ⟨hw.nodup p, hm.nodup_added, ?_⟩
    rintro call hcall other hother rfl
    have hlt := hw.called p call hcall
    obtain ⟨heq, -⟩ := hm.call_of_added hother
    omega
  apart p p' call h h' := by
    rw [hm.sent_eq, filterMap_append] at h h'
    rcases mem_append.mp h with h | h <;> rcases mem_append.mp h' with h' | h'
    · exact hw.apart p p' call h h'
    · split at h'
      · exact (hw.apart_move hm h' h).elim
      · cases h'
    · split at h
      · exact (hw.apart_move hm h h').elim
      · cases h
    split at h
    · next hp =>
      split at h'
      · next hp' => exact hp.trans hp'.symm
      · cases h'
    · cases h

theorem wired_step (hw : Wired t r) {a : Action} (h : step t r a = some r') : Wired t r' := by
  rcases step_cases hw h with ⟨-, peer, written, added, hm, -⟩ | ⟨-, hguest⟩
  · exact hw.move hm
  simp only [guestPart, Prod.mk.injEq] at hguest
  obtain ⟨hguest, hcalls, hconnections, hsent⟩ := hguest
  exact ⟨hguest ▸ hw.closed_ws, hguest ▸ hconnections ▸ hw.ws_lt,
    hsent ▸ hconnections ▸ hw.unopened, hguest ▸ hsent ▸ hw.connecting,
    hguest ▸ hsent ▸ hw.token, hguest ▸ hsent ▸ hcalls ▸ hw.called,
    hguest ▸ hsent ▸ hw.nodup, hsent ▸ hw.apart⟩

end Room

end BreadboardTui.Collab
