import CliMessaging.Verification.Client.Receiving
import CliMessaging.Verification.Distributed.Authorship
import CliMessaging.Verification.Distributed.WireMessages
import CliMessaging.Verification.Distributed.WireReplay

/-! # The network of bytes refines the network of messages

Every frame that a server receives is a client's request, a message of another server, or
nothing to it. So a run of the network of bytes is a run of the network of messages in
which the frames of no consequence are left out. -/

namespace CliMessaging.Distributed

open State Transition

/-- The event that matches an event of the network of bytes, if any. -/
def WireEvent.event? : WireEvent → Option Event
  | timer n r => some (.pass n r)
  | receive f st env =>
      match f.request? with
      | some (.client req) => some (.pass f.dst (st.reaction env (.recv f.src (.client req))))
      | some (.s2s msg) =>
          some (.delivery ⟨f.src, f.dst, msg⟩ (st.reaction env (.recv f.src (.s2s msg))))
      | none => none
  | inject _ => none
  | drop f => f.packet?.map .lost

/-- The servers are the same, and the datagrams in flight are those that frames are taken for. -/
structure WireNet.Refines (w : WireNet) (g : Net) : Prop where
  server : w.server = g.server
  flight : (w.flight.filterMap Frame.packet?).Perm g.flight

/-- The frame holds a datagram that its sender sends in one of the events. -/
def Frame.SentIn (f : Frame) (es : List Event) : Prop :=
  ∃ e ∈ es, e.node = f.src ∧ ∃ d ∈ e.sent, d.dst = f.dst ∧ Encodes d.msg f.data

variable {T : Topology} {w w' : WireNet} {ws : List WireEvent} {e : WireEvent} {g : Net}
  {st : State} {env : Env} {f : Frame} {r : Reaction} {sent : List Datagram}
  {frames : List Frame} {n : Addressable} {req : Request}

/-! ## Frames -/

theorem Frame.request?_eq_some : f.request? = some req ↔ Accepts f.data req := Iff.rfl

theorem Frame.packet?_of_s2s {msg : S2sMsg} (h : f.request? = some (.s2s msg)) :
    f.packet? = some ⟨f.src, f.dst, msg⟩ := by
  simp only [packet?, h]

theorem Frame.packet?_of_client {req : ClientRequest} (h : f.request? = some (.client req)) :
    f.packet? = none := by
  simp only [packet?, h]

theorem Frame.packet?_of_none (h : f.request? = none) : f.packet? = none := by
  simp only [packet?, h]

theorem Frame.packet?_of_text {text : Text} (h : Encodes (.text text) f.data) :
    f.packet? = none := by
  apply packet?_of_none
  cases hreq : f.request? with
  | none => rfl
  | some req =>
      obtain ⟨m, hm, -⟩ := (encodes_accepts_iff h req).mp hreq
      cases hm

theorem Frame.packet?_of_encodes {msg : S2sMsg} (h : Encodes (.s2s msg) f.data) :
    f.packet? = some ⟨f.src, f.dst, msg⟩ :=
  packet?_of_s2s ((encodes_accepts_iff h _).mpr ⟨msg, rfl, rfl⟩)

/-- The datagrams that the frames of a server are taken for are those it sends to servers. -/
theorem Frames.packets (h : Frames n sent frames) :
    frames.filterMap Frame.packet? = packets n sent := by
  induction h with
  | nil => rfl
  | @cons d f sent frames hd _ ih =>
      obtain ⟨hsrc, hdst, henc⟩ := hd
      obtain ⟨dst, msg⟩ := d
      have hcons : Distributed.packets n (⟨dst, msg⟩ :: sent) =
          Distributed.packets n [⟨dst, msg⟩] ++ Distributed.packets n sent :=
        packets_append n [⟨dst, msg⟩] sent
      rw [hcons, ← ih]
      cases msg with
      | text text => rw [List.filterMap_cons_none (Frame.packet?_of_text henc)]; rfl
      | s2s msg =>
          rw [List.filterMap_cons_some (Frame.packet?_of_encodes henc), hsrc, hdst]
          rfl

theorem filterMap_erase_of_none {flight : List Frame} (h : f.packet? = none) (hf : f ∈ flight) :
    ((flight.erase f).filterMap Frame.packet?).Perm (flight.filterMap Frame.packet?) := by
  have hperm := (List.perm_cons_erase hf).filterMap Frame.packet?
  rw [List.filterMap_cons_none h] at hperm
  exact hperm.symm

theorem filterMap_erase_of_some {flight : List Frame} {p : Packet} (h : f.packet? = some p)
    (hf : f ∈ flight) :
    ((flight.erase f).filterMap Frame.packet?).Perm ((flight.filterMap Frame.packet?).erase p) := by
  have hperm := (List.perm_cons_erase hf).filterMap Frame.packet?
  rw [List.filterMap_cons_some h] at hperm
  simpa using (hperm.erase p).symm

/-! ## One event -/

namespace WireNet.Refines

/-- A server that has put in frames what it sends. -/
theorem update (h : w.Refines g) (hframes : Frames n r.sent frames) :
    WireNet.Refines ⟨Function.update w.server n r.after, w.flight ++ frames⟩ (g.update n r) := by
  refine ⟨?_, ?_⟩
  · rw [h.server]
    rfl
  · rw [List.filterMap_append, hframes.packets]
    exact h.flight.append_right _

/-- Taking a frame that is no datagram of a server. -/
theorem take_other (h : w.Refines g) (hf : f ∈ w.flight) (hnone : f.packet? = none) :
    WireNet.Refines ⟨w.server, w.flight.erase f⟩ g :=
  ⟨h.server, (filterMap_erase_of_none hnone hf).trans h.flight⟩

theorem take_packet (h : w.Refines g) {p : Packet} (hf : f ∈ w.flight)
    (hp : f.packet? = some p) :
    p ∈ g.flight ∧ WireNet.Refines ⟨w.server, w.flight.erase f⟩ (g.take p) := by
  refine ⟨?_, h.server, ?_⟩
  · exact h.flight.mem_iff.mp (List.mem_filterMap.mpr ⟨f, hf, hp⟩)
  · exact (filterMap_erase_of_some hp hf).trans (h.flight.erase p)

/-- A running server receives a frame that asks for something. -/
theorem receive (h : w.Refines g) (hf : f ∈ w.flight) (hst : w.server f.dst = some st)
    (hreq : f.request? = some req)
    (hframes : Frames f.dst (st.reaction env (.recv f.src req)).sent frames) :
    ∃ g', Run Net.Step g (WireEvent.receive f st env).event?.toList g' ∧
      WireNet.Refines ⟨Function.update w.server f.dst (st.reaction env (.recv f.src req)).after,
        w.flight.erase f ++ frames⟩ g' := by
  have hreacts := st.reacts_reaction env (.recv f.src req)
  rw [h.server] at hst
  cases req with
  | client req =>
      have hkept := h.take_other hf (Frame.packet?_of_client hreq)
      refine ⟨_, ?_, hkept.update hframes⟩
      simp only [WireEvent.event?, hreq]
      exact .single (.pass hst hreacts fun src msg heq => by cases heq)
  | s2s msg =>
      obtain ⟨hp, hkept⟩ := h.take_packet hf (Frame.packet?_of_s2s hreq)
      refine ⟨_, ?_, hkept.update hframes⟩
      simp only [WireEvent.event?, hreq]
      exact .single (.delivery hp hst hreacts rfl)

end WireNet.Refines

/-- A datagram that asks for nothing changes nothing. -/
theorem serverLoop_of_no_request (h : f.request? = none) :
    serverLoop st env f.src f.data = .ok (st, []) := by
  apply serverLoop_of_not_accepts
  rintro ⟨req, hreq⟩
  rw [← Frame.request?_eq_some, h] at hreq
  cases hreq

theorem serverLoop_of_request (h : f.request? = some req) :
    serverLoop st env f.src f.data = (st.reaction env (.recv f.src req)).result :=
  Accepts.serverLoop h st env f.src

/-- Every event of the network of bytes is matched, possibly by nothing. -/
theorem WireNet.Refines.step (h : w.Refines g) (hstep : WireNet.Step w e w') :
    ∃ g', Run Net.Step g e.event?.toList g' ∧ w'.Refines g' := by
  cases hstep with
  | @timer n st r frames hst hr hkind hframes =>
      refine ⟨g.update n r, .single (.pass ?_ hr fun src msg => hkind src _), h.update hframes⟩
      rw [← h.server, hst]
  | @receive f st st' env sent frames hf hst hok hframes =>
      cases hreq : f.request? with
      | none =>
          rw [serverLoop_of_no_request hreq] at hok
          cases hok
          cases hframes
          refine ⟨g, ?_, ?_⟩
          · simp only [WireEvent.event?, hreq]
            exact .nil g
          · rw [Function.update_eq_self_iff.mpr hst.symm, List.append_nil]
            exact h.take_other hf (Frame.packet?_of_none hreq)
      | some req =>
          rw [serverLoop_of_request hreq] at hok
          have hafter : (st.reaction env (.recv f.src req)).after = some st' := by
            simp [Reaction.after, hok]
          have hsent : (st.reaction env (.recv f.src req)).sent = sent := by
            simp [Reaction.sent, hok]
          rw [← hafter]
          exact h.receive hf hst hreq (hsent ▸ hframes)
  | @crash f st env fault hf hst herror =>
      cases hreq : f.request? with
      | none =>
          rw [serverLoop_of_no_request hreq] at herror
          cases herror
      | some req =>
          rw [serverLoop_of_request hreq] at herror
          have hafter : (st.reaction env (.recv f.src req)).after = none := by
            simp [Reaction.after, herror]
          have hsent : (st.reaction env (.recv f.src req)).sent = [] := Reaction.sent_of_down hafter
          rw [← hafter, ← List.append_nil (w.flight.erase f)]
          exact h.receive hf hst hreq (hsent ▸ List.Forall₂.nil)
  | @inject f hnone =>
      refine ⟨g, .nil g, h.server, ?_⟩
      rw [List.filterMap_append, List.filterMap_cons_none hnone, List.filterMap_nil,
        List.append_nil]
      exact h.flight
  | @drop f hf hst =>
      cases hp : f.packet? with
      | none =>
          refine ⟨g, ?_, h.take_other hf hp⟩
          simp only [WireEvent.event?, hp]
          exact .nil g
      | some p =>
          obtain ⟨hmem, hkept⟩ := h.take_packet hf hp
          refine ⟨g.take p, ?_, hkept⟩
          simp only [WireEvent.event?, hp]
          have hdst : p.dst = f.dst := by
            unfold Frame.packet? at hp
            split at hp
            · cases hp
              rfl
            · cases hp
          refine .single (.lost hmem ?_)
          rw [hdst, ← h.server, hst]

/-! ## Runs -/

theorem WireNet.refines_initial (T : Topology) : T.wire.Refines T.initial :=
  ⟨rfl, .nil⟩

theorem Frame.SentIn.mono {es : List Event} (h : f.SentIn es) (later : List Event) :
    f.SentIn (es ++ later) := by
  obtain ⟨e, he, hrest⟩ := h
  exact ⟨e, List.mem_append_left later he, hrest⟩

theorem Frames.sentIn (h : Frames n sent frames) (hf : f ∈ frames) {e : Event}
    (hnode : e.node = n) (hsent : e.sent = sent) : f.SentIn [e] := by
  obtain ⟨d, hd, hsrc, hdst, henc⟩ :
      ∃ d ∈ sent, f.src = n ∧ f.dst = d.dst ∧ Encodes d.msg f.data := by
    clear hsent
    induction h with
    | nil => cases hf
    | @cons d k sent frames hd _ ih =>
        rcases List.mem_cons.mp hf with rfl | hf
        · exact ⟨d, List.mem_cons_self, hd⟩
        · obtain ⟨d', hd', hrest⟩ := ih hf
          exact ⟨d', List.mem_cons_of_mem _ hd', hrest⟩
  refine ⟨e, List.mem_singleton_self e, hnode.trans hsrc.symm, d, ?_, hdst.symm, henc⟩
  rw [hsent]
  exact hd

/-- What a server puts in frames when it receives a frame. -/
theorem sentIn_of_receive {st' : State} {k : Frame}
    (hok : serverLoop st env f.src f.data = .ok (st', sent)) (hframes : Frames f.dst sent frames)
    (hk : k ∈ frames) : k.SentIn (WireEvent.receive f st env).event?.toList := by
  cases hreq : f.request? with
  | none =>
      rw [serverLoop_of_no_request hreq] at hok
      cases hok
      cases hframes
      cases hk
  | some req =>
      rw [serverLoop_of_request hreq] at hok
      have hsent : (st.reaction env (.recv f.src req)).sent = sent := by
        simp [Reaction.sent, hok]
      cases req with
      | client req =>
          simp only [WireEvent.event?, hreq]
          exact hframes.sentIn hk rfl hsent
      | s2s msg =>
          simp only [WireEvent.event?, hreq]
          exact hframes.sentIn hk rfl hsent

/-- Every frame in flight comes from outside or from an event in which its sender sent it. -/
theorem WireNet.sentIn (hrun : Run WireNet.Step T.wire ws w) (hf : f ∈ w.flight) :
    .inject f ∈ ws ∨ f.SentIn (ws.filterMap WireEvent.event?) := by
  let I : List WireEvent → WireNet → Prop := fun ws w => ∀ f ∈ w.flight,
    .inject f ∈ ws ∨ f.SentIn (ws.filterMap WireEvent.event?)
  have hend : I ([] ++ ws) w := by
    refine hrun.history (P := fun _ => True) ?_ (fun _ _ => trivial) [] fun f hf => ?_
    · intro ws w e w' h _ hstep f hf
      have hfilter : (ws ++ [e]).filterMap WireEvent.event? =
          ws.filterMap WireEvent.event? ++ e.event?.toList := by
        rw [List.filterMap_append]
        cases hevent : e.event? <;> simp [hevent]
      have hold : f ∈ w.flight →
          .inject f ∈ ws ++ [e] ∨ f.SentIn ((ws ++ [e]).filterMap WireEvent.event?) := by
        intro hf
        rw [hfilter]
        exact (h f hf).imp (List.mem_append_left _) fun hsent => hsent.mono _
      have hnew : f.SentIn e.event?.toList →
          .inject f ∈ ws ++ [e] ∨ f.SentIn ((ws ++ [e]).filterMap WireEvent.event?) := by
        rintro ⟨e', he', hrest⟩
        rw [hfilter]
        exact Or.inr ⟨e', List.mem_append_right _ he', hrest⟩
      cases hstep with
      | timer hst hr hkind hframes =>
          rcases List.mem_append.mp hf with hf | hf
          · exact hold hf
          · exact hnew (hframes.sentIn hf rfl rfl)
      | receive hrecv hst hok hframes =>
          rcases List.mem_append.mp hf with hf | hf
          · exact hold (List.mem_of_mem_erase hf)
          · exact hnew (sentIn_of_receive hok hframes hf)
      | crash hrecv hst herror => exact hold (List.mem_of_mem_erase hf)
      | inject hnone =>
          rcases List.mem_append.mp hf with hf | hf
          · exact hold hf
          · rw [List.mem_singleton.mp hf]
            exact Or.inl (by simp)
      | drop hdrop hst => exact hold (List.mem_of_mem_erase hf)
    · cases hf
  exact hend f hf

theorem WireNet.exists_net (hrun : Run WireNet.Step T.wire ws w) :
    ∃ g, Run Net.Step T.initial (ws.filterMap WireEvent.event?) g ∧ w.Refines g :=
  hrun.stuttering (fun _ _ _ _ h hstep => h.step hstep) (refines_initial T)

/-- The network of bytes, to which anybody may send anything but server-to-server messages,
refines the network of messages: in every run the servers do what they do in the run of the
events that the frames stand for, the datagrams in flight are those that frames in flight
are taken for, and every frame that does not come from outside holds a datagram that its
sender sends in that run. -/
theorem wire_refines_net (hrun : Run WireNet.Step T.wire ws w) :
    ∃ g, Run Net.Step T.initial (ws.filterMap WireEvent.event?) g ∧ w.Refines g ∧
      ∀ f ∈ w.flight, .inject f ∉ ws → f.SentIn (ws.filterMap WireEvent.event?) := by
  obtain ⟨g, hnet, hrefines⟩ := WireNet.exists_net hrun
  refine ⟨g, hnet, hrefines, fun f hf hown => ?_⟩
  exact (WireNet.sentIn hrun hf).resolve_left hown

/-- A client logs in, joins a channel and says something on it. -/
def chatter : List WireChoice :=
  [.send ⟨desk 1, node 1, requestLogin (.ofString alice)⟩,
    .arrive (desk 1) (node 1) ⟨0, 0⟩,
    .send ⟨desk 1, node 1, requestJoin (.ofString chat)⟩,
    .arrive (desk 1) (node 1) ⟨0, 0⟩,
    .arrive (node 1) (node 2) ⟨0, 0⟩,
    .send ⟨desk 1, node 1, requestSay (.ofString chat) (.ofString hello)⟩,
    .arrive (desk 1) (node 1) ⟨0, 7⟩]

/-- The join of the second server is the one datagram in flight; the say that comes back to
the client is none. -/
theorem wire_refines_net_chatter :
    ∃ ws w g, twoServers.wire.replay chatter = some (ws, w) ∧ w.flight.length = 2 ∧
      Run Net.Step twoServers.initial (ws.filterMap WireEvent.event?) g ∧
      g.flight = [⟨node 2, node 1, .join chat⟩] := by
  have hfacts : (twoServers.wire.replay chatter).map (fun p =>
      (p.2.flight.length, p.2.flight.filterMap Frame.packet?)) =
        some (2, [⟨node 2, node 1, .join chat⟩]) := by decide
  obtain ⟨⟨ws, w⟩, hreplay, hw⟩ := Option.map_eq_some_iff.mp hfacts
  obtain ⟨hlength, hpackets⟩ := Prod.mk.inj hw
  obtain ⟨g, hnet, hrefines, -⟩ := wire_refines_net (WireNet.run_of_replay hreplay)
  have hflight := hrefines.flight
  rw [show w.flight.filterMap Frame.packet? = _ from hpackets] at hflight
  exact ⟨ws, w, g, hreplay, hlength, hnet, List.perm_singleton.mp hflight.symm⟩

/-- Whatever bytes come from outside, a frame of a server that says it is a say makes the
client print a line, and the channel, the name and the text on it are those of a message
that a client has sent after it had logged in under that name. The frame is on its way to
somebody who has joined the channel at the server that shows the message. -/
theorem printed_says_have_authors (hrun : Run WireNet.Step T.wire ws w) (hf : f ∈ w.flight)
    (hown : .inject f ∉ ws) (hsay : decodeInt f.data = TextType.say.code) :
    ∃ m : Said, Client.Survives f.data
        (Client.sayLine m.channel.bytes m.username.bytes m.text.bytes) ∧
      m.Authored (ws.filterMap WireEvent.event?) ∧
      ∃ u : User, u.addr = f.dst ∧ u.Joined (ws.filterMap WireEvent.event?) f.src m.channel := by
  obtain ⟨g, hnet, -⟩ := WireNet.exists_net hrun
  obtain ⟨e, he, hnode, d, hd, hdst, henc⟩ := (WireNet.sentIn hrun hf).resolve_left hown
  obtain ⟨past, u, v, future, hes, hpast, hstep, -⟩ := hnet.split_of_mem he
  obtain ⟨st, r, st', hr, heff, hd⟩ := T.keeps_attributed.sender (hpast.snoc hstep) hd
  rw [hes]
  rw [← hdst, ← hnode]
  generalize hmsg : d.msg = msg at henc
  generalize f.data = data at henc hsay ⊢
  cases henc with
  | @say channel username text channelName userName txt hc hu ht =>
      obtain ⟨⟨uid, hauthor⟩, user, haddr, hjoined⟩ :=
        hr.text_has_author (m := ⟨0, username, channel, text⟩) heff hd hmsg
      refine ⟨⟨uid, username, channel, text⟩, ?_, ?_, user, haddr, hjoined.mono _⟩
      · exact Client.textSay_survives hc.terminate hu.terminate ht.terminate
      · have hlater := hauthor.mono future
        rw [List.append_assoc] at hlater
        exact hlater
  | list hfields =>
      rw [encodeChannelList, textList, decodeInt_encodeInt] at hsay
      exact absurd hsay (by decide)
  | who hc hfields =>
      rw [encodeWho, textWho, decodeInt_encodeInt] at hsay
      exact absurd hsay (by decide)
  | s2sJoin hc =>
      rw [encodeS2sJoin, structS2sJoin, decodeInt_encodeInt] at hsay
      exact absurd hsay (by decide)
  | s2sLeave hc =>
      rw [encodeS2sLeave, structS2sLeave, decodeInt_encodeInt] at hsay
      exact absurd hsay (by decide)
  | s2sSay uid hu hc ht =>
      rw [encodeS2sSay, structS2sSay, decodeInt_encodeInt] at hsay
      exact absurd hsay (by decide)

/-- What the client is shown of its own say. -/
def echo : Frame :=
  ⟨node 1, desk 1, encodeSay (.ofString chat) (.ofString alice) (.ofString hello)⟩

def WireEvent.isInjectionOf (f : Frame) : WireEvent → Bool
  | inject g => decide (g = f)
  | _ => false

theorem printed_says_have_authors_chatter :
    ∃ ws w, Run WireNet.Step twoServers.wire ws w ∧ echo ∈ w.flight ∧
      ∃ m : Said, Client.Survives echo.data
          (Client.sayLine m.channel.bytes m.username.bytes m.text.bytes) ∧
        m.Authored (ws.filterMap WireEvent.event?) := by
  have hfacts : (twoServers.wire.replay chatter).map (fun p =>
      (p.2.flight.contains echo, p.1.any (WireEvent.isInjectionOf echo))) =
        some (true, false) := by decide
  obtain ⟨⟨ws, w⟩, hreplay, hw⟩ := Option.map_eq_some_iff.mp hfacts
  obtain ⟨hin, hnot⟩ := Prod.mk.inj hw
  have hrun := WireNet.run_of_replay hreplay
  have hmem : echo ∈ w.flight := List.contains_iff_mem.mp hin
  have hown : WireEvent.inject echo ∉ ws := by
    intro hsent
    have hany : ws.any (WireEvent.isInjectionOf echo) = true :=
      List.any_eq_true.mpr ⟨_, hsent, decide_eq_true (rfl : echo = echo)⟩
    rw [show ws.any (WireEvent.isInjectionOf echo) = false from hnot] at hany
    cases hany
  obtain ⟨m, hprints, hauthor, -⟩ := printed_says_have_authors hrun hmem hown (by decide)
  exact ⟨ws, w, hrun, hmem, m, hprints, hauthor⟩

end CliMessaging.Distributed
