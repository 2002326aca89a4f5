import BreadboardTui.Collab.Share

/-!
# What a connected guest has

The socket of the host drops a frame when its buffer is full, also on an open connection, and a
guest that connects again while it is still at a snapshot of the old connection counts as welcomed
before the new one. Nothing else goes wrong: in the runs without these two steps the host puts
every frame on its connections, and a welcomed guest that has applied all frames has all entries.
-/

namespace BreadboardTui.Collab

open List

/-- A frame of a snapshot. -/
def HostFrame.isSnapshot {E : Type} : HostFrame E → Bool
  | .welcome _ | .chunk .. => true
  | .entry _ | .other => false

namespace Share

variable {J E : Type} {w : Wire J E} {s s' : Share J E}

/-! ### Conditions on steps -/

/-- The buffer of the host is not full when a frame was sealed. -/
def keepsFrames (s : Share J E) : ShareAction J → Bool
  | .hostFinishSend _ => s.host.pendingSends.length < maxPendingSends
  | _ => true

/-- The guest when it has finalized what it is at. -/
def settled (g : Guest E) : Mirror E :=
  match g.finalizing with
  | none => g.mirror
  | some entries => g.mirror.finish entries

/-- No snapshot of an old connection is completed after a new one has opened. -/
def opensClear (s : Share J E) : ShareAction J → Bool
  | .guestOpen => (stepGuest (J := J) s.guest s.peers .guestOpen).all fun g =>
      !(g.applyChain.foldl Mirror.applyFrame (settled g)).welcomed
  | _ => true

def calm (s : Share J E) (a : ShareAction J) : Bool := keepsFrames s a && opensClear s a

/-! ### The host's socket -/

/-- What was written and not forwarded, and what is still to be written. -/
def pipe (s : Share J E) : List (Targeted E) := s.relay ++ s.host.queue

/-- The host's socket has dropped nothing. -/
structure Lossless (s : Share J E) : Prop where
  closed : s.host.closed = false
  sent_eq : s.earlier ++ s.written ++ s.host.queue = s.sent

/-- A step of the host's socket. -/
structure HostKeeps (s s' : Share J E) : Prop where
  lossless : Lossless s'
  pipe_eq : s'.pipe = s.pipe
  journal_eq : s'.journal = s.journal
  peers_eq : s'.peers = s.peers
  guest_eq : s'.guest = s.guest

theorem HostKeeps.write {result : CollabSocket (Targeted E) × List (Targeted E)}
    (h : Lossless s) (hclosed : result.1.closed = s.host.closed)
    (hqueue : result.2 ++ result.1.queue = s.host.queue) : HostKeeps s (s.writeHost result) := by
  refine ⟨⟨hclosed.trans h.closed, ?_⟩, ?_, rfl, rfl, rfl⟩
  · simp only [writeHost, append_assoc]
    rw [hqueue, ← append_assoc]
    exact h.sent_eq
  simp only [pipe, writeHost, append_assoc]
  rw [hqueue]

variable {host : CollabSocket (Targeted E)}

theorem HostKeeps.flow {written : List (Targeted E)} (h : Lossless s)
    (hroom : s.host.sealing ≠ none → s.host.pendingSends.length < maxPendingSends)
    (hflow : s.host.Flow host written) : HostKeeps s (s.writeHost (host, written)) :=
  .write h hflow.closed_eq (hflow.lossless h.closed hroom)

theorem HostKeeps.open (h : Lossless s)
    (hclosed : host.closed = false) (hqueue : host.queue = s.host.queue) :
    HostKeeps s (s.openHost host) := by
  refine ⟨⟨hclosed, ?_⟩, ?_, rfl, rfl, rfl⟩
  · simp only [openHost, append_nil]
    rw [hqueue]
    exact h.sent_eq
  simp only [pipe, openHost]
  rw [hqueue]

theorem HostKeeps.same (h : Lossless s)
    (hclosed : host.closed = s.host.closed) (hqueue : host.queue = s.host.queue) :
    HostKeeps s { s with host } := by
  refine ⟨⟨hclosed.trans h.closed, ?_⟩, ?_, rfl, rfl, rfl⟩
  · dsimp only
    rw [hqueue]
    exact h.sent_eq
  simp only [pipe]
  rw [hqueue]

theorem queue_foldl_send (host : CollabSocket (Targeted E)) (frames : List (Targeted E)) :
    (frames.foldl CollabSocket.send host).queue = host.queue ++ frames := by
  induction frames generalizing host with
  | nil => rw [foldl_nil, append_nil]
  | cons frame frames ih =>
    rw [foldl_cons, ih, CollabSocket.queue_send, append_assoc, singleton_append]

theorem closed_foldl_send (host : CollabSocket (Targeted E)) (frames : List (Targeted E)) :
    (frames.foldl CollabSocket.send host).closed = host.closed := by
  induction frames generalizing host with
  | nil => rfl
  | cons frame frames ih =>
    rw [foldl_cons, ih]
    rfl

theorem Lossless.sendAll (h : Lossless s) (frames : List (Targeted E)) :
    Lossless (s.sendAll frames) := by
  refine ⟨(closed_foldl_send _ _).trans h.closed, ?_⟩
  rw [Share.sendAll, queue_foldl_send, ← append_assoc, h.sent_eq]

variable (frames : List (Targeted E))

theorem pipe_sendAll : (s.sendAll frames).pipe = s.pipe ++ frames := by
  rw [pipe, pipe, Share.sendAll, queue_foldl_send, append_assoc]

/-- What a step does to what is on its way: a step of the host's socket nothing, others add frames
at its end, or take one from its front. -/
inductive PipeStep (w : Wire J E) (s : Share J E) (a : ShareAction J) : Share J E → Prop where
  | host (s' : Share J E) : HostKeeps s s' → PipeStep w s a s'
  | silent (entry : J) : w.copy entry = none →
      PipeStep w s a { s with journal := s.journal ++ [entry] }
  | entry (entry : J) (copy : E) : w.copy entry = some copy →
      PipeStep w s a (Share.sendAll { s with journal := s.journal ++ [entry] }
        [(none, .entry copy)])
  | other (target : Option ℕ) : PipeStep w s a (s.sendAll [(target, .other)])
  | hello (peer : ℕ) : 0 < peer → peer ≤ s.peers → s.guest.ws ≠ some ⟨peer, .connecting⟩ →
      PipeStep w s a
        (s.sendAll ((welcomeFrames w.bytes (s.wireEntries w)).map (some peer, ·)))
  | join : PipeStep w s a { s with peers := s.peers + 1 }
  | forward (frame : Targeted E) (relay : List (Targeted E)) : s.relay = frame :: relay →
      PipeStep w s a { s with relay, guest := deliver s.guest frame }
  | guest (guest : Guest E) (peers : ℕ) : stepGuest s.guest s.peers a = some guest →
      s.peers ≤ peers → (a = .guestOpenSocket → peers = s.peers + 1) →
      PipeStep w s a { s with guest, peers }

variable {a : ShareAction J}

theorem pipeStep_of_step (hl : Lossless s) (hkeep : keepsFrames s a = true)
    (h : step w s a = some s') : PipeStep w s a s' := by
  cases a with
  | append entry =>
    rw [step] at h
    split at h
    · next copy hcopy => rw [← Option.some.inj h]; exact .entry entry copy hcopy
    · next hcopy => rw [← Option.some.inj h]; exact .silent entry hcopy
  | sendOther target =>
    rw [step] at h
    split at h
    · rw [← Option.some.inj h]
      exact .other target
    · cases h
  | hello peer =>
    rw [step] at h
    split at h
    · cases h
    next hnot =>
    rw [← Option.some.inj h]
    simp only [not_or] at hnot
    exact .hello peer (Nat.pos_of_ne_zero hnot.1) (Nat.not_lt.mp hnot.2.1) hnot.2.2
  | join =>
    rw [← Option.some.inj h]
    exact .join
  | hostConnect =>
    obtain ⟨host, hhost, rfl⟩ := Option.map_eq_some_iff.mp h
    obtain ⟨-, hclosed, hqueue⟩ := CollabSocket.connect_eq_some hhost
    exact .host _ (.open hl hclosed hqueue)
  | hostStartSend =>
    obtain ⟨result, hresult, rfl⟩ := Option.map_eq_some_iff.mp h
    have hsealing := CollabSocket.sealing_of_startSend hresult
    exact .host _ (.flow hl (absurd hsealing) (CollabSocket.flow_startSend hresult))
  | hostFinishSend =>
    obtain ⟨result, hresult, rfl⟩ := Option.map_eq_some_iff.mp h
    exact .host _ (.flow hl (fun _ => of_decide_eq_true hkeep)
      (CollabSocket.flow_finishSend hresult))
  | hostRunDrain =>
    obtain ⟨result, hresult, rfl⟩ := Option.map_eq_some_iff.mp h
    have hsealing := CollabSocket.sealing_of_runDrain hresult
    exact .host _ (.flow hl (absurd hsealing) (CollabSocket.flow_runDrain hresult))
  | hostFireDrainTimer =>
    obtain ⟨host, hhost, rfl⟩ := Option.map_eq_some_iff.mp h
    obtain ⟨hqueue, -, hclosed⟩ := CollabSocket.queue_fireDrainTimer hhost
    exact .host _ (.same hl hclosed hqueue)
  | hostFireRetryTimer =>
    obtain ⟨host, hhost, rfl⟩ := Option.map_eq_some_iff.mp h
    obtain ⟨hclosed, hqueue, -⟩ := CollabSocket.fireRetryTimer_eq_some hhost
    exact .host _ (.open hl (hclosed.trans hl.closed) hqueue)
  | hostHandleOpen =>
    obtain ⟨result, hresult, rfl⟩ := Option.map_eq_some_iff.mp h
    obtain ⟨id, -, -, hclosed, hqueue⟩ := CollabSocket.handleOpen_eq_some hresult
    exact .host _ (.write hl hclosed hqueue)
  | hostBeginClose =>
    obtain ⟨host, hhost, rfl⟩ := Option.map_eq_some_iff.mp h
    obtain ⟨ws, -, -, hclosed, hqueue⟩ := CollabSocket.beginClose_eq_some hhost
    exact .host _ (.same hl hclosed hqueue)
  | hostHandleClose =>
    obtain ⟨host, hhost, rfl⟩ := Option.map_eq_some_iff.mp h
    obtain ⟨hclosed, hqueue⟩ := CollabSocket.handleClose_transient hhost
    exact .host _ (.same hl hclosed hqueue)
  | forward =>
    rw [step] at h
    split at h
    · cases h
    next frame relay hrelay =>
    rw [← Option.some.inj h]
    exact .forward frame relay hrelay
  | guestOpenSocket =>
    obtain ⟨guest, hguest, rfl⟩ := Option.map_eq_some_iff.mp h
    exact .guest guest _ hguest (Nat.le_succ _) fun _ => rfl
  | guestOpen | guestClose | guestReceive | guestDecrypt | guestApply | guestFinalize =>
    obtain ⟨guest, hguest, rfl⟩ := Option.map_eq_some_iff.mp h
    exact .guest guest _ hguest le_rfl fun hopen => by cases hopen

theorem lossless_step (hl : Lossless s) (hkeep : keepsFrames s a = true)
    (h : step w s a = some s') : Lossless s' := by
  have hpipe := pipeStep_of_step hl hkeep h
  cases hpipe with
  | host _ hhost => exact hhost.lossless
  | silent => exact ⟨hl.closed, hl.sent_eq⟩
  | entry entry =>
    have happended : Lossless { s with journal := s.journal ++ [entry] } := ⟨hl.closed, hl.sent_eq⟩
    exact happended.sendAll _
  | other => exact hl.sendAll _
  | hello => exact hl.sendAll _
  | join => exact ⟨hl.closed, hl.sent_eq⟩
  | forward => exact ⟨hl.closed, hl.sent_eq⟩
  | guest => exact ⟨hl.closed, hl.sent_eq⟩

/-! ### Snapshots -/

variable {m : Mirror E} (bytes : E → ℕ)

theorem foldl_chunkLoop {count : ℕ} {collected : List E}
    (hm : m.pendingSnapshot = some ⟨count, collected⟩) {batch entries : List E} {batchBytes : ℕ}
    (hcount : count = collected.length + batch.length + entries.length) :
    (chunkLoop bytes batch batchBytes entries).foldl Mirror.applyFrame m =
      ⟨true, none, collected ++ batch ++ entries⟩ := by
  induction entries generalizing m collected batch batchBytes with
  | nil =>
    rw [chunkLoop, foldl_cons, foldl_nil, Mirror.applyFrame, Mirror.begin, hm]
    simp [Mirror.finish]
  | cons entry entries ih =>
    rw [chunkLoop]
    rw [length_cons] at hcount
    split
    · next hcut =>
      -- the batch is full, and there is more to come
      have hmore : ¬ count ≤ (collected ++ batch).length := by
        rw [length_append]
        omega
      have hstep : m.applyFrame (.chunk batch false) =
          { m with pendingSnapshot := some ⟨count, collected ++ batch⟩ } := by
        rw [Mirror.applyFrame, Mirror.begin, hm]
        simp only [Bool.false_eq_true, false_or, if_neg hmore]
      rw [foldl_cons, hstep, ih rfl (by
        rw [length_append, length_singleton]
        omega), append_assoc, singleton_append]
    rw [ih hm (by
      rw [length_append, length_singleton]
      omega), ← append_assoc, append_assoc _ [entry], singleton_append]

/-- A snapshot makes any guest a copy of the journal. -/
theorem foldl_welcomeFrames (m : Mirror E) (entries : List E) :
    (welcomeFrames bytes entries).foldl Mirror.applyFrame m = ⟨true, none, entries⟩ := by
  rw [welcomeFrames, foldl_cons]
  by_cases hnil : entries = []
  · subst hnil
    rfl
  have hne : entries.length ≠ 0 := fun h => hnil (length_eq_zero_iff.mp h)
  have hstep : m.applyFrame (.welcome entries.length) =
      { m with pendingSnapshot := some ⟨entries.length, []⟩ } := by
    rw [Mirror.applyFrame, Mirror.begin]
    simp only [if_neg hne]
  rw [hstep, foldl_chunkLoop bytes rfl (by simp), append_nil, nil_append]

/-! ### What is on its way to the guest -/

/-- The frames for a peer. -/
def forPeer (peer : ℕ) (frames : List (Targeted E)) : List (HostFrame E) :=
  (frames.filter fun frame => frame.1 = none ∨ frame.1 = some peer).map Prod.snd

theorem forPeer_append (peer : ℕ) (xs ys : List (Targeted E)) :
    forPeer peer (xs ++ ys) = forPeer peer xs ++ forPeer peer ys := by
  rw [forPeer, filter_append, map_append, ← forPeer, ← forPeer]

/-- All frames that the guest will apply on a connection, in order, if nothing else is sent. -/
def onTheWay (s : Share J E) (peer : ℕ) : List (HostFrame E) :=
  s.guest.applyChain ++ ((s.guest.recvChain.filter fun entry => entry.1 = peer).map Prod.snd ++
    (s.guest.inbound ++ forPeer peer s.pipe))

/-- What the frames on their way make of the guest. -/
def outcome (s : Share J E) (peer : ℕ) : Mirror E :=
  (s.onTheWay peer).foldl Mirror.applyFrame (settled s.guest)

/-- A guest will not be welcomed, or have all entries. -/
def Current (w : Wire J E) (s : Share J E) : Prop :=
  ∀ peer, s.guest.ws = some ⟨peer, .opened⟩ → (s.outcome peer).welcomed = true →
    (s.outcome peer).replica = s.wireEntries w

/-- Snapshots are for peers that have said hello, and connections have numbers that were given
out. -/
structure Addressed (s : Share J E) : Prop where
  snapshots : ∀ frame ∈ s.pipe, frame.2.isSnapshot = true →
    ∃ peer, frame.1 = some peer ∧ peer ≤ s.peers ∧ s.guest.ws ≠ some ⟨peer, .connecting⟩
  ws_le : ∀ ws, s.guest.ws = some ws → ws.id ≤ s.peers
  tags : ∀ entry ∈ s.guest.recvChain,
    entry.1 ≤ s.peers ∧ s.guest.ws ≠ some ⟨entry.1, .connecting⟩

/-! ### Steps of the guest -/

variable {frame : HostFrame E}

theorem welcomed_applyFrame (hwelcomed : m.welcomed = false) (hframe : frame.isSnapshot = false) :
    m.applyFrame frame = m := by
  cases frame with
  | welcome => cases hframe
  | chunk => cases hframe
  | entry =>
    rw [Mirror.applyFrame, Mirror.begin]
    simp [hwelcomed]
  | other => rfl

theorem foldl_applyFrame_ignored {frames : List (HostFrame E)}
    (hwelcomed : m.welcomed = false) (hframes : ∀ frame ∈ frames, frame.isSnapshot = false) :
    frames.foldl Mirror.applyFrame m = m := by
  induction frames with
  | nil => rfl
  | cons frame frames ih =>
    rw [foldl_cons, welcomed_applyFrame hwelcomed (hframes frame mem_cons_self)]
    exact ih fun f hf => hframes f (mem_cons_of_mem _ hf)

section GuestSteps

variable {g g' : Guest E} {peers : ℕ}

theorem settled_beginApply {chain : List (HostFrame E)} (h : g.finalizing = none) :
    settled (beginApply g frame chain) = g.mirror.applyFrame frame := by
  rw [beginApply, Mirror.applyFrame]
  split
  · rw [settled, h]
  · rfl

theorem beginApply_eq (frame : HostFrame E) (chain : List (HostFrame E)) :
    (beginApply g frame chain).ws = g.ws ∧ (beginApply g frame chain).inbound = g.inbound ∧
      (beginApply g frame chain).recvChain = g.recvChain ∧
      (beginApply g frame chain).applyChain = chain := by
  rw [beginApply]
  split <;> exact ⟨rfl, rfl, rfl, rfl⟩

/-- What a step of the guest is. -/
inductive GuestStep (g : Guest E) (peers : ℕ) : ShareAction J → Guest E → Prop where
  | openSocket : g.ws = none →
      GuestStep g peers .guestOpenSocket { g with ws := some ⟨peers + 1, .connecting⟩ }
  | opened (id : ℕ) : g.ws = some ⟨id, .connecting⟩ →
      GuestStep g peers .guestOpen { g with
        ws := some ⟨id, .opened⟩
        inbound := []
        mirror := { g.mirror with welcomed := false, pendingSnapshot := none } }
  | close : GuestStep g peers .guestClose { g with ws := none, inbound := [] }
  | receive (id : ℕ) (frame : HostFrame E) (inbound : List (HostFrame E)) :
      g.ws = some ⟨id, .opened⟩ → g.inbound = frame :: inbound →
      GuestStep g peers .guestReceive
        { g with inbound, recvChain := g.recvChain ++ [(id, frame)] }
  | decrypt (id : ℕ) (frame : HostFrame E) (recvChain : List (ℕ × HostFrame E)) :
      g.recvChain = (id, frame) :: recvChain → g.ws.map (·.id) = some id →
      GuestStep g peers .guestDecrypt
        { g with recvChain, applyChain := g.applyChain ++ [frame] }
  | drop (id : ℕ) (frame : HostFrame E) (recvChain : List (ℕ × HostFrame E)) :
      g.recvChain = (id, frame) :: recvChain → g.ws.map (·.id) ≠ some id →
      GuestStep g peers .guestDecrypt { g with recvChain }
  | apply (frame : HostFrame E) (chain : List (HostFrame E)) :
      g.finalizing = none → g.applyChain = frame :: chain →
      GuestStep g peers .guestApply (beginApply g frame chain)
  | finalize (entries : List E) : g.finalizing = some entries →
      GuestStep g peers .guestFinalize
        { g with finalizing := none, mirror := g.mirror.finish entries }

theorem guestStep_of_stepGuest (h : stepGuest g peers a = some g') : GuestStep g peers a g' := by
  cases a with
  | guestOpenSocket =>
    rw [stepGuest] at h
    split at h
    · cases h
    next hws =>
    rw [← Option.some.inj h]
    exact .openSocket (Option.not_isSome_iff_eq_none.mp hws)
  | guestOpen =>
    rw [stepGuest] at h
    split at h
    · next id hws =>
      rw [← Option.some.inj h]
      exact .opened id hws
    · cases h
  | guestClose =>
    rw [stepGuest] at h
    split at h
    · cases h
    rw [← Option.some.inj h]
    exact .close
  | guestReceive =>
    rw [stepGuest] at h
    split at h
    · next id frame inbound hws hinbound =>
      rw [← Option.some.inj h]
      exact .receive id frame inbound hws hinbound
    · cases h
  | guestDecrypt =>
    rw [stepGuest] at h
    split at h
    · cases h
    next id frame recvChain hchain =>
    split at h
    · next hid =>
      rw [← Option.some.inj h]
      exact .decrypt id frame recvChain hchain hid
    next hid =>
    rw [← Option.some.inj h]
    exact .drop id frame recvChain hchain hid
  | guestApply =>
    rw [stepGuest] at h
    split at h
    · next frame chain hfinalizing hchain =>
      rw [← Option.some.inj h]
      exact .apply frame chain hfinalizing hchain
    · cases h
  | guestFinalize =>
    rw [stepGuest] at h
    obtain ⟨entries, hfinalizing, rfl⟩ := Option.map_eq_some_iff.mp h
    exact .finalize entries hfinalizing
  | _ => cases h

end GuestSteps

/-! ### Who frames are for -/

variable {guest : Guest E}

theorem addressed_guest {peers : ℕ} (h : Addressed s)
    (hguest : GuestStep s.guest s.peers a guest) (hle : s.peers ≤ peers)
    (hopen : a = .guestOpenSocket → peers = s.peers + 1) :
    Addressed { s with guest, peers } := by
  -- most steps connect to nothing new
  have hkept (hnone : ∀ id, guest.ws = some ⟨id, .connecting⟩ → s.guest.ws = some ⟨id, .connecting⟩)
      (hid : ∀ ws, guest.ws = some ws → ∃ ws', s.guest.ws = some ws' ∧ ws'.id = ws.id)
      (htags : ∀ entry ∈ guest.recvChain, entry ∈ s.guest.recvChain ∨
        s.guest.ws = some ⟨entry.1, .opened⟩) : Addressed { s with guest, peers } := by
    refine ⟨fun frame hframe hsnapshot => ?_, fun ws hws => ?_, fun entry hentry => ?_⟩
    · obtain ⟨peer, hpeer, hpeers, hws⟩ := h.snapshots frame hframe hsnapshot
      exact ⟨peer, hpeer, hpeers.trans hle, fun hws' => hws (hnone peer hws')⟩
    · obtain ⟨ws', hws', heq⟩ := hid ws hws
      have hold := h.ws_le ws' hws'
      rw [heq] at hold
      exact hold.trans hle
    rcases htags entry hentry with hold | hopened
    · obtain ⟨hpeers, hws⟩ := h.tags entry hold
      exact ⟨hpeers.trans hle, fun hws' => hws (hnone _ hws')⟩
    refine ⟨(h.ws_le _ hopened).trans hle, fun hws' => ?_⟩
    have hboth := hopened.symm.trans (hnone _ hws')
    injection hboth with hboth
    injection hboth with _ hstate
    cases hstate
  cases hguest with
  | openSocket hws =>
    rw [hopen rfl]
    refine ⟨fun frame hframe hsnapshot => ?_, fun ws hws => ?_, fun entry hentry => ?_⟩
    · obtain ⟨peer, hpeer, hpeers, -⟩ := h.snapshots frame hframe hsnapshot
      refine ⟨peer, hpeer, hpeers.trans (Nat.le_succ _), fun hnew => ?_⟩
      injection hnew with hnew
      injection hnew with hnew
      omega
    · rw [← Option.some.inj hws]
    obtain ⟨hpeers, -⟩ := h.tags entry hentry
    refine ⟨hpeers.trans (Nat.le_succ _), fun hnew => ?_⟩
    injection hnew with hnew
    injection hnew with hnew
    omega
  | opened id hws =>
    refine hkept (fun id' hid' => ?_) (fun ws hid' => ?_) fun entry hentry => .inl hentry
    · injection hid' with hid'
      injection hid' with _ hstate
      cases hstate
    · exact ⟨_, hws, by rw [← Option.some.inj hid']⟩
  | close =>
    refine hkept (fun id hid => ?_) (fun ws hid => ?_) fun entry hentry => .inl hentry
    · cases hid
    · cases hid
  | receive id frame inbound hws =>
    refine hkept (fun _ hid => hid) (fun ws hid => ⟨ws, hid, rfl⟩) fun entry hentry => ?_
    rcases mem_append.mp hentry with hentry | hentry
    · exact .inl hentry
    rw [mem_singleton.mp hentry]
    exact .inr hws
  | decrypt id frame recvChain hchain hid =>
    refine hkept (fun _ hid => hid) (fun ws hid => ⟨ws, hid, rfl⟩) fun entry hentry => .inl ?_
    rw [hchain]
    exact mem_cons_of_mem _ hentry
  | drop id frame recvChain hchain hid =>
    refine hkept (fun _ hid => hid) (fun ws hid => ⟨ws, hid, rfl⟩) fun entry hentry => .inl ?_
    rw [hchain]
    exact mem_cons_of_mem _ hentry
  | apply frame chain =>
    obtain ⟨hws, -, hrecv, -⟩ := beginApply_eq (g := s.guest) frame chain
    refine hkept (fun _ hid => ?_) (fun ws hid => ⟨ws, ?_, rfl⟩) fun entry hentry => .inl ?_
    · rwa [hws] at hid
    · rwa [hws] at hid
    · rwa [hrecv] at hentry
  | finalize =>
    exact hkept (fun _ hid => hid) (fun ws hid => ⟨ws, hid, rfl⟩) fun entry hentry => .inl hentry

theorem deliver_eq (g : Guest E) (frame : Targeted E) :
    ∃ inbound, deliver g frame = { g with inbound } := by
  rw [deliver]
  split
  · split
    · exact ⟨_, rfl⟩
    · exact ⟨_, rfl⟩
  · exact ⟨_, rfl⟩

theorem Addressed.sendAll (h : Addressed s) {frames : List (Targeted E)}
    (hframes : ∀ frame ∈ frames, frame.2.isSnapshot = true →
      ∃ peer, frame.1 = some peer ∧ peer ≤ s.peers ∧ s.guest.ws ≠ some ⟨peer, .connecting⟩) :
    Addressed (s.sendAll frames) := by
  refine ⟨fun frame hframe hsnapshot => ?_, h.ws_le, h.tags⟩
  rw [pipe_sendAll] at hframe
  rcases mem_append.mp hframe with hframe | hframe
  · exact h.snapshots frame hframe hsnapshot
  · exact hframes frame hframe hsnapshot

theorem addressed_step (h : Addressed s) (hstep : PipeStep w s a s') : Addressed s' := by
  cases hstep with
  | host _ hhost =>
    refine ⟨?_, ?_, ?_⟩
    · rw [hhost.pipe_eq, hhost.peers_eq, hhost.guest_eq]
      exact h.snapshots
    · rw [hhost.peers_eq, hhost.guest_eq]
      exact h.ws_le
    rw [hhost.peers_eq, hhost.guest_eq]
    exact h.tags
  | silent => exact ⟨h.snapshots, h.ws_le, h.tags⟩
  | entry entry =>
    have happended : Addressed { s with journal := s.journal ++ [entry] } :=
      ⟨h.snapshots, h.ws_le, h.tags⟩
    refine happended.sendAll fun frame hframe hsnapshot => ?_
    rw [mem_singleton.mp hframe] at hsnapshot
    cases hsnapshot
  | other =>
    refine h.sendAll fun frame hframe hsnapshot => ?_
    rw [mem_singleton.mp hframe] at hsnapshot
    cases hsnapshot
  | hello peer hpos hpeer hws =>
    refine h.sendAll fun frame hframe _ => ?_
    obtain ⟨_, -, rfl⟩ := mem_map.mp hframe
    exact ⟨peer, rfl, hpeer, hws⟩
  | join =>
    refine ⟨fun frame hframe hsnapshot => ?_, fun ws hws => ?_, fun entry hentry => ?_⟩
    · obtain ⟨peer, hfor, hpeer, hws⟩ := h.snapshots frame hframe hsnapshot
      exact ⟨peer, hfor, hpeer.trans (Nat.le_succ _), hws⟩
    · exact (h.ws_le ws hws).trans (Nat.le_succ _)
    · exact (h.tags entry hentry).imp_left fun hle => hle.trans (Nat.le_succ _)
  | forward frame relay hrelay =>
    obtain ⟨inbound, heq⟩ := deliver_eq s.guest frame
    rw [heq]
    refine ⟨fun f hf hsnapshot => h.snapshots f ?_ hsnapshot, h.ws_le, h.tags⟩
    rw [pipe, hrelay]
    exact mem_cons_of_mem _ hf
  | guest guest peers hguest hle hopen =>
    exact addressed_guest h (guestStep_of_stepGuest hguest) hle hopen

/-! ### The guest stays current -/

theorem current_of_eq (hc : Current w s) (hjournal : s'.wireEntries w = s.wireEntries w)
    (hguest : ∀ peer, s'.guest.ws = some ⟨peer, .opened⟩ →
      s.guest.ws = some ⟨peer, .opened⟩ ∧ s'.outcome peer = s.outcome peer) :
    Current w s' := by
  intro peer hws hwelcomed
  obtain ⟨hold, houtcome⟩ := hguest peer hws
  rw [houtcome] at hwelcomed ⊢
  rw [hjournal]
  exact hc peer hold hwelcomed

variable {peer : ℕ}

theorem onTheWay_deliver {frame : Targeted E} {relay : List (Targeted E)}
    (hrelay : s.relay = frame :: relay) (hws : s.guest.ws = some ⟨peer, .opened⟩) :
    Share.onTheWay { s with relay, guest := deliver s.guest frame } peer = s.onTheWay peer := by
  rw [onTheWay, onTheWay, pipe, pipe, hrelay, deliver, hws, forPeer, forPeer, cons_append,
    filter_cons]
  by_cases hfor : frame.1 = none ∨ frame.1 = some peer
  · simp [hfor]
  · simp [hfor]

/-- A step of the guest other than opening a connection changes nothing in the end. -/
theorem outcome_guest {peers : ℕ} (hguest : GuestStep s.guest s.peers a guest) (ha : a ≠ .guestOpen)
    (hws : guest.ws = some ⟨peer, .opened⟩) : s.guest.ws = some ⟨peer, .opened⟩ ∧
      Share.outcome { s with guest, peers } peer = s.outcome peer := by
  cases hguest with
  | openSocket =>
    injection hws with hws
    injection hws with _ hstate
    cases hstate
  | opened => exact absurd rfl ha
  | close => cases hws
  | receive id frame inbound hopen hinbound =>
    have hid : id = peer := by
      have hsame := hopen.symm.trans hws
      injection hsame with hsame
      injection hsame
    refine ⟨hws, ?_⟩
    rw [outcome, outcome, onTheWay, onTheWay, hinbound]
    simp [hid, pipe, settled]
  | decrypt id frame recvChain hchain hid =>
    have hws : s.guest.ws = some ⟨peer, .opened⟩ := hws
    have hpeer : id = peer := by
      rw [hws] at hid
      exact (Option.some.inj hid).symm
    refine ⟨hws, ?_⟩
    rw [outcome, outcome, onTheWay, onTheWay, hchain]
    simp [hpeer, pipe, settled]
  | drop id frame recvChain hchain hid =>
    have hws : s.guest.ws = some ⟨peer, .opened⟩ := hws
    have hpeer : id ≠ peer := by
      rintro rfl
      rw [hws] at hid
      exact hid rfl
    refine ⟨hws, ?_⟩
    rw [outcome, outcome, onTheWay, onTheWay, hchain]
    simp [hpeer, pipe, settled]
  | apply frame chain hfinalizing hchain =>
    obtain ⟨hsame, hinbound, hrecv, happly⟩ := beginApply_eq (g := s.guest) frame chain
    refine ⟨hsame.symm.trans hws, ?_⟩
    rw [outcome, outcome, onTheWay, onTheWay, hchain]
    rw [hinbound, hrecv, happly, settled_beginApply hfinalizing, settled, hfinalizing]
    rfl
  | finalize entries hfinalizing =>
    refine ⟨hws, ?_⟩
    rw [outcome, outcome, settled, settled, hfinalizing]
    rfl

/-- A new connection starts without a snapshot, if none is left from the old one. -/
theorem outcome_guestOpen {peers : ℕ} (h : Addressed s)
    (hclear : opensClear s (.guestOpen : ShareAction J) = true)
    (hguest : stepGuest (J := J) s.guest s.peers .guestOpen = some guest)
    (hws : guest.ws = some ⟨peer, .opened⟩) :
    (Share.outcome { s with guest, peers } peer).welcomed = false := by
  rw [opensClear, hguest] at hclear
  have hchain := Bool.not_eq_true' _ |>.mp hclear
  have hstep := guestStep_of_stepGuest hguest
  cases hstep with
  | opened id hconnecting =>
    injection hws with hws
    injection hws with hid
    subst hid
    have hrecv : (s.guest.recvChain.filter fun entry => entry.1 = id) = [] := by
      rw [filter_eq_nil_iff]
      intro entry hentry heq
      exact (h.tags entry hentry).2 (by rw [hconnecting, of_decide_eq_true heq])
    rw [outcome, onTheWay]
    rw [hrecv, map_nil, nil_append, nil_append, List.foldl_append, foldl_applyFrame_ignored hchain]
    · exact hchain
    -- a snapshot on its way is for another connection
    intro frame hframe
    obtain ⟨targeted, htargeted, rfl⟩ := mem_map.mp hframe
    obtain ⟨hpipe, hfor⟩ := mem_filter.mp htargeted
    cases hsnapshot : targeted.2.isSnapshot with
    | false => rfl
    | true =>
      obtain ⟨other, hother, -, hne⟩ := h.snapshots targeted hpipe hsnapshot
      have hfor := of_decide_eq_true hfor
      rw [hother] at hfor
      rcases hfor with hnone | hsame
      · cases hnone
      rw [hconnecting, Option.some.inj hsame] at hne
      exact absurd rfl hne

theorem outcome_sendAll (peer : ℕ) : (s.sendAll frames).outcome peer =
      (forPeer peer frames).foldl Mirror.applyFrame (s.outcome peer) := by
  rw [outcome, outcome, onTheWay, onTheWay, pipe_sendAll, forPeer_append, ← List.foldl_append]
  simp [Share.sendAll]

theorem current_step (hc : Current w s) (h : Addressed s)
    (hclear : opensClear s a = true) (hstep : PipeStep w s a s') : Current w s' := by
  cases hstep with
  | host _ hhost =>
    refine current_of_eq hc ?_ fun peer hws => ⟨?_, ?_⟩
    · rw [wireEntries, wireEntries, hhost.journal_eq]
    · rwa [hhost.guest_eq] at hws
    · rw [outcome, outcome, onTheWay, onTheWay, hhost.pipe_eq, hhost.guest_eq]
  | silent entry hcopy =>
    refine current_of_eq hc ?_ fun peer hws => ⟨hws, rfl⟩
    rw [wireEntries, wireEntries, filterMap_append, filterMap_cons_none hcopy,
      filterMap_nil, append_nil]
  | entry entry copy hcopy =>
    intro peer hws
    have hwire : (s.journal ++ [entry]).filterMap w.copy = s.wireEntries w ++ [copy] := by
      rw [wireEntries, filterMap_append, filterMap_cons_some hcopy, filterMap_nil]
    have houtcome := outcome_sendAll (s := { s with journal := s.journal ++ [entry] })
      [(none, .entry copy)] peer
    rw [houtcome]
    change ((s.outcome peer).applyFrame (.entry copy)).welcomed = true →
      ((s.outcome peer).applyFrame (.entry copy)).replica = (s.journal ++ [entry]).filterMap w.copy
    rw [hwire, Mirror.applyFrame, Mirror.begin]
    -- a welcomed guest appends the entry, another one ignores it
    by_cases hwelcomed : (s.outcome peer).welcomed = true
    · intro _
      simp only [hwelcomed, if_true]
      rw [hc peer hws hwelcomed]
    simp only [hwelcomed]
    intro hyes
    exact absurd hyes hwelcomed
  | other =>
    refine current_of_eq hc rfl fun peer hws => ⟨hws, ?_⟩
    rw [outcome_sendAll, forPeer, filter_cons]
    split <;> rfl
  | hello other =>
    intro peer hopen
    rw [outcome_sendAll]
    by_cases hpeer : other = peer
    · subst hpeer
      have hfor : forPeer other ((welcomeFrames w.bytes (s.wireEntries w)).map (some other, ·)) =
          welcomeFrames w.bytes (s.wireEntries w) := by
        rw [forPeer, filter_eq_self.mpr, map_map]
        · exact map_id _
        intro frame hframe
        obtain ⟨_, -, rfl⟩ := mem_map.mp hframe
        exact decide_eq_true (.inr rfl)
      rw [hfor, foldl_welcomeFrames]
      exact fun _ => rfl
    have hfor : forPeer peer ((welcomeFrames w.bytes (s.wireEntries w)).map (some other, ·)) =
        [] := by
      rw [forPeer, filter_eq_nil_iff.mpr, map_nil]
      intro frame hframe
      obtain ⟨_, -, rfl⟩ := mem_map.mp hframe
      simp [hpeer]
    rw [hfor]
    exact hc peer hopen
  | join => exact current_of_eq hc rfl fun peer hws => ⟨hws, rfl⟩
  | forward frame relay hrelay =>
    obtain ⟨inbound, heq⟩ := deliver_eq s.guest frame
    refine current_of_eq hc rfl fun peer hws => ?_
    have hold : s.guest.ws = some ⟨peer, .opened⟩ := by
      rw [heq] at hws
      exact hws
    refine ⟨hold, ?_⟩
    rw [outcome, onTheWay_deliver hrelay hold, heq]
    rfl
  | guest guest peers hguest =>
    by_cases hopen : a = .guestOpen
    · subst hopen
      intro peer hws hwelcomed
      rw [outcome_guestOpen h hclear hguest hws] at hwelcomed
      cases hwelcomed
    exact current_of_eq hc rfl fun peer hws =>
      outcome_guest (guestStep_of_stepGuest hguest) hopen hws

/-! ### Runs -/

theorem lossless_start : Lossless ({} : Share J E) := ⟨rfl, rfl⟩

theorem lossless_of_reached (h : Runs.Reached (Runs.guarded keepsFrames (step w)) {} s) :
    Lossless s := by
  refine h.invariant _ lossless_start fun s a s' hl hstep => ?_
  obtain ⟨hkeep, hstep⟩ := Runs.guarded_eq_some.mp hstep
  exact lossless_step hl hkeep hstep

theorem current_of_reached (h : Runs.Reached (Runs.guarded calm (step w)) {} s) : Current w s := by
  have hall : Lossless s ∧ Addressed s ∧ Current w s := by
    refine h.invariant (fun s => Lossless s ∧ Addressed s ∧ Current w s) ?_ ?_
    · refine ⟨lossless_start, ⟨fun frame hframe => ?_, fun ws hws => ?_, fun entry hentry => ?_⟩,
        fun peer hws => ?_⟩
      · cases hframe
      · cases hws
      · cases hentry
      · cases hws
    rintro s a s' ⟨hl, haddressed, hc⟩ hstep
    obtain ⟨hcalm, hstep⟩ := Runs.guarded_eq_some.mp hstep
    obtain ⟨hkeep, hclear⟩ := Bool.and_eq_true_iff.mp hcalm
    have hpipe := pipeStep_of_step hl hkeep hstep
    exact ⟨lossless_step hl hkeep hstep, addressed_step haddressed hpipe,
      current_step hc haddressed hclear hpipe⟩
  exact hall.2.2

/-- In the runs in which no frame is sealed while the buffer is full, the host puts all frames that
are sent on its connections, in order. Where, besides, no snapshot of an old connection of the
guest is completed after a new one has opened, a welcomed guest that has applied all frames has
the entries of the journal. -/
theorem guest_misses_nothing (w : Wire J E) (s : Share J E) :
    (Runs.Reached (Runs.guarded keepsFrames (step w)) {} s →
      s.earlier ++ s.written ++ s.host.queue = s.sent) ∧
    (Runs.Reached (Runs.guarded calm (step w)) {} s → ∀ peer,
      s.guest.ws = some ⟨peer, .opened⟩ → s.guest.mirror.welcomed = true →
      s.guest.finalizing = none → s.onTheWay peer = [] →
      s.guest.mirror.replica = s.wireEntries w) := by
  refine ⟨fun h => (lossless_of_reached h).sent_eq, ?_⟩
  intro h peer hws hwelcomed hfinalizing hway
  have houtcome : s.outcome peer = s.guest.mirror := by
    rw [outcome, hway, foldl_nil, settled, hfinalizing]
  have hcurrent := current_of_reached h peer hws
  rw [houtcome] at hcurrent
  exact hcurrent hwelcomed

/-- The host writes a frame, and the relay forwards it. -/
def passOn : List (ShareAction ℕ) :=
  [.hostStartSend fun _ => 0, .hostFinishSend fun _ => 0, .forward]

/-- The guest applies a frame. -/
def takeIn : List (ShareAction ℕ) := [.guestReceive, .guestDecrypt, .guestApply]

/-- Entries that are copied as they are. -/
def plain : Wire ℕ ℕ := ⟨some, fun _ => 1⟩

def bothConnect : List (ShareAction ℕ) :=
  [.hostConnect, .hostHandleOpen fun _ => 0, .guestOpenSocket, .guestOpen]

theorem guest_misses_nothing_oneEntry :
    ∃ s : Share ℕ ℕ, s.sent.length = 3 ∧ s.earlier ++ s.written ++ s.host.queue = s.sent ∧
      s.guest.mirror.replica = [7] := by
  obtain ⟨s, hexec, hsent, hws, hwelcomed, hfinalizing, hway, hwire⟩ :
      ∃ s, Runs.exec (Runs.guarded calm (step plain)) {}
        (bothConnect ++ [.append 7, .hello 1] ++ passOn ++ passOn ++ passOn ++ takeIn ++ takeIn ++
          takeIn ++ [.guestFinalize]) = some s ∧
        s.sent.length = 3 ∧ s.guest.ws = some ⟨1, .opened⟩ ∧ s.guest.mirror.welcomed = true ∧
        s.guest.finalizing = none ∧ s.onTheWay 1 = [] ∧ s.wireEntries plain = [7] :=
    ⟨_, rfl, by decide +kernel⟩
  have hreached : Runs.Reached (Runs.guarded calm (step plain)) {} s :=
    Runs.Reached.start.of_exec hexec
  have hkeep : Runs.Reached (Runs.guarded keepsFrames (step plain)) {} s :=
    hreached.mono fun _ _ hcalm => (Bool.and_eq_true_iff.mp hcalm).1
  refine ⟨s, hsent, (guest_misses_nothing plain s).1 hkeep, ?_⟩
  rw [(guest_misses_nothing plain s).2 hreached 1 hws hwelcomed hfinalizing hway, hwire]

/-- The guest loses its connection while it finalizes an empty snapshot, misses an entry, and
connects again. -/
def staleSnapshotRun : List (ShareAction ℕ) :=
  bothConnect ++ [.hello 1] ++ passOn ++ takeIn ++ [.guestClose, .append 7] ++ passOn ++ passOn ++
    [.guestOpenSocket, .guestOpen, .guestFinalize]

/-- The connection of the host is slow, and its buffer is full. -/
def fullBufferRun : List (ShareAction ℕ) :=
  [.hostConnect, .hostHandleOpen fun _ => 0] ++
    (List.replicate 257 [.append 7, .hostStartSend fun _ => backpressureThreshold,
      .hostFinishSend fun _ => backpressureThreshold]).flatten

/-- A frame is dropped on an open connection, and a guest is welcomed without the journal. -/
theorem guest_misses_entries :
    (¬ ∀ s, Runs.Reached (step plain) {} s → s.earlier ++ s.written ++ s.host.queue = s.sent) ∧
    ¬ ∀ s, Runs.Reached (step plain) {} s → ∀ peer, s.guest.ws = some ⟨peer, .opened⟩ →
      s.guest.mirror.welcomed = true → s.guest.finalizing = none → s.onTheWay peer = [] →
      s.guest.mirror.replica = s.wireEntries plain := by
  constructor
  · intro h
    have hrun : (Runs.exec (step plain) {} fullBufferRun).any fun s =>
        s.earlier ++ s.written ++ s.host.queue ≠ s.sent := by decide +kernel
    obtain ⟨s, hexec, hne⟩ := (Option.any_eq_true _ _).mp hrun
    exact of_decide_eq_true hne (h s (Runs.Reached.start.of_exec hexec))
  intro h
  obtain ⟨s, hexec, hws, hwelcomed, hfinalizing, hway, hreplica, hwire⟩ :
      ∃ s, Runs.exec (step plain) {} staleSnapshotRun = some s ∧
        s.guest.ws = some ⟨2, .opened⟩ ∧ s.guest.mirror.welcomed = true ∧
        s.guest.finalizing = none ∧ s.onTheWay 2 = [] ∧ s.guest.mirror.replica = [] ∧
        s.wireEntries plain = [7] :=
    ⟨_, rfl, by decide +kernel⟩
  have hsame := h s (Runs.Reached.start.of_exec hexec) 2 hws hwelcomed hfinalizing hway
  rw [hreplica, hwire] at hsame
  cases hsame

end Share

end BreadboardTui.Collab
