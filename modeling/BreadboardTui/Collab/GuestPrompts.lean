import BreadboardTui.Collab.GuestLink

/-!
# Which prompts survive a reconnect

When a connection opens, the socket writes what waits in its buffer before the guest is told that
it can introduce itself. So a prompt that was buffered while the guest was disconnected comes to
the host in front of the `hello` of the connection, from a peer the host does not know.
-/

namespace BreadboardTui.Collab

open List Option Bool

open Hashline (Units)

namespace Room

variable {t : Tokens} {r r' : Room} {a : Action}

/-! ### Conditions on steps -/

/-- When a connection opens, no prompt and no abort waits in front. -/
def opensClear (r : Room) : Action → Bool
  | .handleOpen _ => r.guest.queue.head?.all GuestFrame.isHello
  | _ => true

/-- When a peer is reported as left, the host is not about to handle a prompt or an abort of it. -/
def leavesClear (r : Room) : Action → Bool
  | .peerLeft peer => r.recvChain.all fun entry => entry.1 ≠ peer || entry.2.isHello
  | _ => true

/-- Every prompt and every abort comes behind a `hello`. -/
def HelloFirst (frames : List GuestFrame) : Prop :=
  ∀ before frame after, frames = before ++ frame :: after → frame.isInput = true →
    ∃ hello ∈ before, hello.isHello = true

/-- The calls of `sendPrompt` that were executed, one for each execution. -/
def executedCalls (r : Room) : List ℕ :=
  r.handled.filterMap fun entry => if entry.2.2 = .executed then entry.2.1.call? else none

/-! ### Frames arrive in the order in which they were sent -/

/-- What has come to the host is the first part of what was sent. -/
def Delivered (r : Room) : Prop :=
  ∀ p, r.arrivals p = (r.sent p).take (r.arrived p) ∧ r.arrived p ≤ (r.sent p).length

variable {peer : ℕ}

theorem step_arrive (h : step t r (.arrive peer) = some r') :
    r.left peer = false ∧ ∃ frame, (r.sent peer)[r.arrived peer]? = some frame ∧
      r' = { r with
        arrived := Function.update r.arrived peer (r.arrived peer + 1)
        recvChain := r.recvChain ++ [(peer, frame)] } := by
  rw [step] at h
  split at h
  · cases h
  next hleft =>
  obtain ⟨frame, hframe, h⟩ := Option.map_eq_some_iff.mp h
  exact ⟨eq_false_of_not_eq_true hleft, frame, hframe, h.symm⟩

theorem step_handle (h : step t r .handle = some r') :
    ∃ peer frame rest, r.recvChain = (peer, frame) :: rest ∧
      r' = { r with
        peers := (handleFrame t r.peers peer frame).1
        recvChain := rest
        handled := r.handled ++ [(peer, frame, (handleFrame t r.peers peer frame).2)] } := by
  rw [step] at h
  split at h
  · cases h
  · next peer frame rest hchain => exact ⟨peer, frame, rest, hchain, (some.inj h).symm⟩

theorem arrivals_of_hostPart (h : r'.hostPart = r.hostPart) (p : ℕ) :
    r'.arrivals p = r.arrivals p := by
  simp only [hostPart, Prod.mk.injEq] at h
  rw [arrivals, arrivals, h.2.2.2.1, h.2.2.2.2]

/-- Handling a frame does not change what has arrived. -/
theorem arrivals_handle (h : step t r .handle = some r') (p : ℕ) :
    r'.arrivals p = r.arrivals p := by
  obtain ⟨peer, frame, rest, hchain, rfl⟩ := step_handle h
  simp only [arrivals, hchain, filter_append, map_append, append_assoc]
  congr 1
  by_cases hp : peer = p
  · simp [hp]
  · simp [hp]

variable {frame : GuestFrame}

theorem arrivals_arrive {arrived : ℕ → ℕ} (p : ℕ) :
    ({ r with arrived, recvChain := r.recvChain ++ [(peer, frame)] } : Room).arrivals p =
      r.arrivals p ++ if p = peer then [frame] else [] := by
  simp only [arrivals, filter_append, map_append, append_assoc]
  congr 2
  by_cases hp : p = peer
  · simp [hp]
  · simp [hp, Ne.symm hp]

theorem delivered_step (hw : Wired t r) (hd : Delivered r) (hstep : step t r a = some r') :
    Delivered r' := by
  rcases step_cases hw hstep with ⟨hhost, peer, written, added, hm, -⟩ | hguest
  · intro p
    have harrived : r'.arrived = r.arrived := congrArg Prod.fst hhost
    rw [arrivals_of_hostPart hhost, harrived, hm.sent_eq, (hd p).1,
      take_append_of_le_length (hd p).2, length_append]
    exact ⟨rfl, (hd p).2.trans (Nat.le_add_right _ _)⟩
  intro p
  cases a with
  | arrive peer =>
    obtain ⟨-, frame, hframe, rfl⟩ := step_arrive hstep
    rw [arrivals_arrive]
    dsimp only
    rw [Function.update_apply]
    split
    · next hp =>
      -- the next frame of what was sent
      obtain ⟨hlt, hget⟩ := List.getElem?_eq_some_iff.mp hframe
      rw [hp, (hd peer).1, take_add_one, hframe]
      exact ⟨rfl, hlt⟩
    rw [append_nil]
    exact hd p
  | peerLeft =>
    cases hstep
    exact hd p
  | handle =>
    have harrivals := arrivals_handle hstep p
    obtain ⟨peer, frame, rest, hchain, rfl⟩ := step_handle hstep
    rw [harrivals]
    exact hd p
  | _ => cases hguest.1

theorem delivered_of_reached (h : Runs.Reached (step t) {} r) : Wired t r ∧ Delivered r := by
  refine h.invariant (fun r => Wired t r ∧ Delivered r)
    ⟨Wired.start t, fun p => ⟨rfl, le_rfl⟩⟩ ?_
  intro r a r' hinv hstep
  exact ⟨wired_step hinv.1 hstep, delivered_step hinv.1 hinv.2 hstep⟩

theorem mem_sent_of_mem_arrivals (hd : Delivered r) {p : ℕ}
    (h : frame ∈ r.arrivals p) : frame ∈ r.sent p := by
  rw [(hd p).1] at h
  exact mem_of_mem_take h

/-! ### The first frame of a connection -/

/-- A connection starts with a `hello`, or will: if it is open, one waits in front. -/
structure Greeted (r : Room) : Prop where
  opened : ∀ id, r.guest.ws = some ⟨id, .opened⟩ →
    (r.sent id ++ r.guest.queue).head?.any GuestFrame.isHello = true
  sent : ∀ p, (r.sent p).head?.all GuestFrame.isHello = true

theorem greeted_step (hw : Wired t r) (hg : Greeted r) (hclear : opensClear r a = true)
    (hstep : step t r a = some r') : Greeted r' := by
  rcases step_cases hw hstep with ⟨-, peer, written, added, hm, hhello⟩ | ⟨-, hguest⟩
  · have hopened : ∀ id, r'.guest.ws = some ⟨id, .opened⟩ →
        (r'.sent id ++ r'.guest.queue).head?.any GuestFrame.isHello = true := by
      intro id hid
      -- what is written goes to the open connection
      have hwritten : (if id = peer then written else []) = written := by
        by_cases hnil : written = []
        · rw [hnil, ite_self]
        have hws := (hm.isOpen hnil).symm.trans hid
        injection hws with hws
        injection hws with hws
        rw [if_pos hws.symm]
      obtain ⟨hhead, hbefore⟩ := hm.opened id hid
      rw [hm.sent_eq, hwritten, append_assoc, head?_append, hhead]
      rcases hbefore with hopen | ⟨hconnecting, rfl⟩
      · have hfirst := hg.opened id hopen
        rw [head?_append] at hfirst
        cases hsent : (r.sent id).head? with
        | some => rwa [hsent] at hfirst
        | none =>
          rw [hsent, none_or] at hfirst
          rw [Option.any_eq_true] at hfirst
          obtain ⟨first, hqueue, hfirst⟩ := hfirst
          rw [none_or, head?_append, hqueue]
          exact hfirst
      -- the connection has just opened, and nothing was sent on it
      obtain ⟨amount, rfl⟩ := hhello rfl
      rw [hw.connecting id hconnecting, head?_nil, none_or, head?_append]
      rw [opensClear] at hclear
      cases hqueue : r.guest.queue.head? with
      | some => rwa [hqueue] at hclear
      | none => rfl
    refine ⟨hopened, fun p => ?_⟩
    rw [hm.sent_eq, head?_append]
    cases hsent : (r.sent p).head? with
    | some =>
      have hfirst := hg.sent p
      rwa [hsent] at hfirst
    | none =>
      rw [none_or]
      split
      · next hp =>
        cases hhead : written.head? with
        | none => rfl
        | some =>
          have hne : written ≠ [] := fun hnil => by
            rw [hnil] at hhead
            cases hhead
          have hany := hopened peer (hm.isOpen hne)
          rw [hm.sent_eq, if_pos rfl, append_assoc, head?_append, ← hp, hsent,
            none_or, head?_append, hhead] at hany
          exact hany
      · rfl
  simp only [guestPart, Prod.mk.injEq] at hguest
  obtain ⟨hguest, -, -, hsent⟩ := hguest
  exact ⟨hguest ▸ hsent ▸ hg.opened, hsent ▸ hg.sent⟩

theorem helloFirst_of_head {frames : List GuestFrame}
    (h : frames.head?.all GuestFrame.isHello = true) : HelloFirst frames := by
  rintro before frame after rfl hinput
  cases before with
  | nil =>
    have hhello : frame.isHello = true := h
    rw [GuestFrame.isInput, hhello] at hinput
    cases hinput
  | cons first => exact ⟨first, mem_cons_self, h⟩

theorem arrivals_head (hd : Delivered r) (hg : Greeted r) (p : ℕ) :
    (r.arrivals p).head?.all GuestFrame.isHello = true := by
  rw [(hd p).1]
  cases hn : r.arrived p with
  | zero => rw [take_zero]; rfl
  | succ =>
    have hsent := hg.sent p
    cases hs : r.sent p with
    | nil => rfl
    | cons => rwa [hs] at hsent

/-! ### What the host does with the frames -/

/-- The host has executed every prompt and every abort, and will. -/
structure Answered (r : Room) : Prop where
  /-- What is still to be handled of a peer that has left. -/
  left : ∀ p, r.left p = true → ∀ entry ∈ r.recvChain, entry.1 = p → entry.2.isHello = true
  /-- A peer of which a frame was handled is known. -/
  known : ∀ p, r.left p = false → (∃ entry ∈ r.handled, entry.1 = p) →
    JsMap.get r.peers p = some true
  replies : ∀ entry ∈ r.handled, entry.2.1.isInput = true → entry.2.2 = .executed

theorem mem_arrivals_of_chain {entry : ℕ × GuestFrame} (h : entry ∈ r.recvChain) :
    entry.2 ∈ r.arrivals entry.1 := by
  refine mem_append_right _ (mem_map.mpr ⟨entry, ?_, rfl⟩)
  exact mem_filter.mpr ⟨h, decide_eq_true rfl⟩

variable {rest : List (ℕ × GuestFrame)}

/-- A frame of a peer of which nothing was handled is the first of the connection. -/
theorem isHello_of_first (hd : Delivered r) (hg : Greeted r)
    (hchain : r.recvChain = (peer, frame) :: rest)
    (hnone : ¬ ∃ entry ∈ r.handled, entry.1 = peer) : frame.isHello = true := by
  have hfirst := arrivals_head hd hg peer
  have hhandled : (r.handled.filter fun entry => entry.1 = peer) = [] :=
    filter_eq_nil_iff.mpr fun entry hentry h =>
      hnone ⟨entry, hentry, of_decide_eq_true h⟩
  rw [arrivals, hhandled, hchain, map_nil, nil_append, filter_cons,
    if_pos (decide_eq_true rfl)] at hfirst
  exact hfirst

/-- The frame the host handles is executed, if it is not a `hello`, and its peer is known then. -/
theorem handleFrame_of_answered (ht : t.guest = some t.host) (hw : Wired t r) (hd : Delivered r)
    (hg : Greeted r) (ha : Answered r) (hchain : r.recvChain = (peer, frame) :: rest) :
    (frame.isInput = true → (handleFrame t r.peers peer frame).2 = .executed) ∧
      (r.left peer = false →
        JsMap.get (handleFrame t r.peers peer frame).1 peer = some true) ∧
      ∀ p, p ≠ peer →
        JsMap.get (handleFrame t r.peers peer frame).1 p = JsMap.get r.peers p := by
  have hmem : (peer, frame) ∈ r.recvChain := by
    rw [hchain]
    exact mem_cons_self
  have hwritable (hinput : frame.isHello = false) :
      r.left peer = false ∧ JsMap.get r.peers peer = some true := by
    have hleft : r.left peer = false := by
      refine eq_false_of_not_eq_true fun hleft => ?_
      have hhello := ha.left peer hleft _ hmem rfl
      rw [hinput] at hhello
      cases hhello
    refine ⟨hleft, ha.known peer hleft ?_⟩
    by_contra hnone
    rw [isHello_of_first hd hg hchain hnone] at hinput
    cases hinput
  cases frame with
  | hello token =>
    have htoken : token = some t.host := by
      rw [← ht]
      exact hw.token peer token
        (mem_append_left _ (mem_sent_of_mem_arrivals hd (mem_arrivals_of_chain hmem)))
    have hverify : verifyWriteToken t.host token = true := decide_eq_true htoken
    simp only [handleFrame, hverify]
    refine ⟨fun h => ?_, fun _ => JsMap.get_set_self, fun p hp => JsMap.get_set_of_ne hp⟩
    cases h
  | prompt =>
    obtain ⟨hleft, hget⟩ := hwritable rfl
    simp only [handleFrame, hget, if_true]
    exact ⟨fun _ => trivial, fun _ => trivial, fun _ _ => trivial⟩
  | abort =>
    obtain ⟨hleft, hget⟩ := hwritable rfl
    simp only [handleFrame, hget, if_true]
    exact ⟨fun _ => trivial, fun _ => trivial, fun _ _ => trivial⟩

theorem answered_step (ht : t.guest = some t.host) (hw : Wired t r) (hd : Delivered r)
    (hg : Greeted r) (ha : Answered r) (hclear : leavesClear r a = true)
    (hstep : step t r a = some r') : Answered r' := by
  rcases step_cases hw hstep with ⟨hhost, -⟩ | ⟨hisHost, -⟩
  · simp only [hostPart, Prod.mk.injEq] at hhost
    obtain ⟨-, hleft, hpeers, hchain, hhandled⟩ := hhost
    exact ⟨hleft ▸ hchain ▸ ha.left, hleft ▸ hpeers ▸ hhandled ▸ ha.known, hhandled ▸ ha.replies⟩
  cases a with
  | arrive peer =>
    obtain ⟨hleft, frame, -, rfl⟩ := step_arrive hstep
    refine ⟨fun p hp entry hentry heq => ?_, ha.known, ha.replies⟩
    rcases mem_append.mp hentry with hentry | hentry
    · exact ha.left p hp entry hentry heq
    -- nothing arrives from a peer that has left
    rw [mem_singleton.mp hentry] at heq
    rw [← heq, hleft] at hp
    cases hp
  | peerLeft =>
    cases hstep
    refine ⟨fun p hp entry hentry heq => ?_, fun p hp hmem => ?_, ha.replies⟩
    · dsimp only at hp
      rw [Function.update_apply] at hp
      split at hp
      · next heqp =>
        have hentry := all_eq_true.mp hclear entry hentry
        rw [heq, heqp] at hentry
        simpa using hentry
      · exact ha.left p hp entry hentry heq
    dsimp only at hp
    rw [Function.update_apply] at hp
    split at hp
    · cases hp
    next hne =>
    rw [JsMap.get_delete_of_ne hne]
    exact ha.known p hp hmem
  | handle =>
    obtain ⟨peer, frame, rest, hchain, rfl⟩ := step_handle hstep
    obtain ⟨hreply, hself, hother⟩ := handleFrame_of_answered ht hw hd hg ha hchain
    refine ⟨fun p hp entry hentry heq => ?_, fun p hp hmem => ?_, fun entry hentry => ?_⟩
    · exact ha.left p hp entry (by rw [hchain]; exact mem_cons_of_mem _ hentry) heq
    · by_cases hpeer : p = peer
      · rw [hpeer]
        exact hself (hpeer ▸ hp)
      · obtain ⟨entry, hentry, heq⟩ := hmem
        rw [hother p hpeer]
        refine ha.known p hp ⟨entry, ?_, heq⟩
        rcases mem_append.mp hentry with hentry | hentry
        · exact hentry
        rw [mem_singleton.mp hentry] at heq
        exact absurd heq.symm hpeer
    rcases mem_append.mp hentry with hentry | hentry
    · exact ha.replies entry hentry
    rw [mem_singleton.mp hentry]
    exact hreply
  | _ => cases hisHost

/-! ### No prompt is executed twice -/

/-- Values that are distinct within each key, and in different keys, are distinct. -/
theorem nodup_filterMap_of_key {β κ γ : Type} [DecidableEq κ] {l : List β} (key : β → κ)
    (g : β → Option γ) (hkey : ∀ k, ((l.filter fun b => key b = k).filterMap g).Nodup)
    (hapart : ∀ b ∈ l, ∀ b' ∈ l, ∀ c, g b = some c → g b' = some c → key b = key b') :
    (l.filterMap g).Nodup := by
  induction l with
  | nil => exact nodup_nil
  | cons b l ih =>
    have hl := ih
      (fun k => (hkey k).sublist (((sublist_cons_self b l).filter _).filterMap g))
      fun b hb b' hb' => hapart b (mem_cons_of_mem _ hb) b' (mem_cons_of_mem _ hb')
    cases hg : g b with
    | none => rwa [filterMap_cons_none hg]
    | some c =>
      rw [filterMap_cons_some hg, nodup_cons]
      refine ⟨fun hmem => ?_, hl⟩
      obtain ⟨b', hb', hc⟩ := mem_filterMap.mp hmem
      -- the other one has the same key, so the two are in one list
      have hsame := hapart b mem_cons_self b' (mem_cons_of_mem _ hb') c hg hc
      have hnodup := hkey (key b)
      rw [filter_cons, if_pos (decide_eq_true rfl), filterMap_cons_some hg, nodup_cons] at hnodup
      refine hnodup.1 (mem_filterMap.mpr ⟨b', ?_, hc⟩)
      exact mem_filter.mpr ⟨hb', decide_eq_true hsame.symm⟩

theorem executedCalls_nodup (hw : Wired t r) (hd : Delivered r) : r.executedCalls.Nodup := by
  have hsent : ∀ p, (((r.handled.filter fun entry => entry.1 = p).filterMap
      fun entry => entry.2.1.call?)).Sublist ((r.sent p).filterMap GuestFrame.call?) := by
    intro p
    have harrivals : (r.arrivals p).Sublist (r.sent p) := by
      rw [(hd p).1]
      exact take_sublist _ _
    have hcalls := ((sublist_append_left _ _).trans harrivals).filterMap GuestFrame.call?
    rwa [filterMap_map] at hcalls
  have hhandled : (r.handled.filterMap fun entry => entry.2.1.call?).Nodup := by
    refine nodup_filterMap_of_key Prod.fst _ (fun p => (hsent p).nodup ?_) ?_
    · have hnodup := hw.nodup p
      rw [filterMap_append] at hnodup
      exact hnodup.of_append_left
    intro entry hentry entry' hentry' call hcall hcall'
    have hmem {e : ℕ × GuestFrame × Reply} (he : e ∈ r.handled) (hc : e.2.1.call? = some call) :
        call ∈ (r.sent e.1).filterMap GuestFrame.call? := by
      refine (hsent e.1).subset (mem_filterMap.mpr ⟨e, ?_, hc⟩)
      exact mem_filter.mpr ⟨he, decide_eq_true rfl⟩
    exact hw.apart _ _ call (hmem hentry hcall) (hmem hentry' hcall')
  rw [executedCalls]
  refine List.Nodup.sublist ?_ hhandled
  have hfilter : (r.handled.filter fun entry => decide (entry.2.2 = .executed)).Sublist
      r.handled := filter_sublist
  have hfilter := hfilter.filterMap fun entry => entry.2.1.call?
  rw [filterMap_filter] at hfilter
  simpa only [decide_eq_true_eq] using hfilter

/-! ### Runs -/

/-- Both conditions. -/
def clear (r : Room) (a : Action) : Bool := opensClear r a && leavesClear r a

theorem greeted_of_reached (h : Runs.Reached (Runs.guarded opensClear (step t)) {} r) :
    (Wired t r ∧ Delivered r) ∧ Greeted r := by
  refine h.invariant (fun r => (Wired t r ∧ Delivered r) ∧ Greeted r)
    ⟨⟨Wired.start t, fun p => ⟨rfl, le_rfl⟩⟩, ?_⟩ ?_
  · refine ⟨fun id hws => ?_, fun p => rfl⟩
    cases hws
  intro r a r' hinv hstep
  obtain ⟨⟨hw, hd⟩, hg⟩ := hinv
  obtain ⟨hclear, hstep⟩ := Runs.guarded_eq_some.mp hstep
  exact ⟨⟨wired_step hw hstep, delivered_step hw hd hstep⟩, greeted_step hw hg hclear hstep⟩

theorem answered_of_reached (ht : t.guest = some t.host)
    (h : Runs.Reached (Runs.guarded clear (step t)) {} r) :
    ((Wired t r ∧ Delivered r) ∧ Greeted r) ∧ Answered r := by
  refine h.invariant (fun r => ((Wired t r ∧ Delivered r) ∧ Greeted r) ∧ Answered r) ⟨?_, ?_⟩ ?_
  · exact greeted_of_reached .start
  · refine ⟨fun p hp => ?_, fun p _ hmem => ?_, fun entry hentry => ?_⟩
    · cases hp
    · obtain ⟨entry, hentry, -⟩ := hmem
      cases hentry
    · cases hentry
  intro r a r' hinv hstep
  obtain ⟨⟨⟨hw, hd⟩, hg⟩, ha⟩ := hinv
  obtain ⟨hclear, hstep⟩ := Runs.guarded_eq_some.mp hstep
  obtain ⟨hopens, hleaves⟩ := and_eq_true_iff.mp hclear
  exact ⟨⟨⟨wired_step hw hstep, delivered_step hw hd hstep⟩, greeted_step hw hg hopens hstep⟩,
    answered_step ht hw hd hg ha hleaves hstep⟩

/-- In the runs in which no prompt waits in front when a connection opens, prompts come to the
host behind the `hello` of their connection; where the host is also not about to handle a prompt
of a peer that is reported as left, none is answered with an error. No prompt is executed twice
in any run. -/
theorem prompts_survive (t : Tokens) (ht : t.guest = some t.host) (r : Room) :
    (Runs.Reached (Runs.guarded opensClear (step t)) {} r → ∀ p, HelloFirst (r.arrivals p)) ∧
    (Runs.Reached (Runs.guarded clear (step t)) {} r →
      ∀ entry ∈ r.handled, entry.2.1.isInput = true → entry.2.2 = .executed) ∧
    (Runs.Reached (step t) {} r → r.executedCalls.Nodup) := by
  refine ⟨fun h p => ?_, fun h entry hentry hinput => ?_, fun h => ?_⟩
  · obtain ⟨⟨-, hd⟩, hg⟩ := greeted_of_reached h
    exact helloFirst_of_head (arrivals_head hd hg p)
  · exact (answered_of_reached ht h).2.replies entry hentry hinput
  obtain ⟨hw, hd⟩ := delivered_of_reached h
  exact executedCalls_nodup hw hd

/-- A connection on which a frame is sealed and written, received and handled. -/
def passFrame (peer : ℕ) : List Action :=
  [.startSend fun _ => 0, .finishSend fun _ => 0, .arrive peer, .handle]

theorem prompts_survive_greeting : ∃ r : Room, r.handled.map Prod.fst = [0, 0] ∧
      ∀ entry ∈ r.handled, entry.2.1.isInput = true → entry.2.2 = .executed := by
  obtain ⟨r, hexec, hhandled⟩ : ∃ r, Runs.exec (Runs.guarded clear (step ⟨[7], some [7]⟩)) {}
      ([.connect, .handleOpen fun _ => 0] ++ passFrame 0 ++ [.sendPrompt [104]] ++ passFrame 0) =
        some r ∧ r.handled.map Prod.fst = [0, 0] :=
    ⟨_, rfl, by decide +kernel⟩
  refine ⟨r, hhandled, ?_⟩
  exact (prompts_survive ⟨[7], some [7]⟩ rfl r).2.1 (Runs.Reached.start.of_exec hexec)

/-- A guest is introduced, loses its connection, sends a prompt and connects again. -/
def reconnectRun : List Action :=
  [.connect, .handleOpen fun _ => 0] ++ passFrame 0 ++
    [.handleClose false, .sendPrompt [104], .startSend fun _ => 0, .finishSend fun _ => 0,
      .peerLeft 0, .fireRetryTimer, .handleOpen fun _ => 0] ++ passFrame 1

/-- The prompt is the first frame of the new connection, and is answered with an error. -/
theorem promptFirst_rejected :
    ¬ ∀ (t : Tokens) (r : Room), t.guest = some t.host → Runs.Reached (step t) {} r →
      (∀ p, HelloFirst (r.arrivals p)) ∧
        ∀ entry ∈ r.handled, entry.2.1.isInput = true → entry.2.2 = .executed := by
  intro h
  obtain ⟨r, hexec, hhandled⟩ : ∃ r, Runs.exec (step ⟨[7], some [7]⟩) {} reconnectRun = some r ∧
      (1, .prompt 0 [104], .rejected) ∈ r.handled :=
    ⟨_, rfl, by decide +kernel⟩
  have hexecuted := (h ⟨[7], some [7]⟩ r rfl (Runs.Reached.start.of_exec hexec)).2 _ hhandled rfl
  cases hexecuted

end Room

end BreadboardTui.Collab
