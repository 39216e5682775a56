import Mathlib.Data.List.TakeWhile
import MutableBitcoin.ReceiveMessages

/-!
# Message transport is exact

What one node pushes another one finds in its queue: in order, unchanged and with its checksum.
-/

namespace MutableBitcoin
open Lib List

variable {hash : Bytes → Uint256} {pchMessageStart : BaseBlob 4} {nSendBufferMaxSize : ℕ}

section Sending

open SendNode

variable {node : SendNode} {q : List Bytes} {stream : Bytes}

/-- What is in the queue and what was sent make up the stream. -/
structure Queued (q : List Bytes) (node : SendNode) (stream : Bytes) : Prop where
  stream : node.sent ++ q.flatten.drop node.nSendOffset = stream
  size : node.nSendSize = q.flatten.length
  offset : ∀ data ∈ q.head?, node.nSendOffset < data.length
  start : q = [] → node.nSendOffset = 0
  nonempty : ∀ data ∈ q, data ≠ []

lemma Queued.offset_le (h : Queued q node stream) : node.nSendOffset ≤ q.flatten.length := by
  cases q with
  | nil =>
    rw [h.start rfl]
    exact Nat.zero_le _
  | cons data rest =>
    rw [flatten_cons, length_append]
    have hoffset := h.offset data rfl
    omega

lemma Queued.head_pos {rest : List Bytes} (h : ∀ data ∈ rest, data ≠ []) : ∀ data ∈ rest.head?, 0 < data.length :=
  fun data hdata => length_pos_iff.mpr (h data (mem_of_mem_head? hdata))

variable (nSendBufferMaxSize) in
lemma sendLoop_queued (outcome : ℕ → SendOutcome) (q : List Bytes) : ∀ (i : ℕ) {node : SendNode}, Queued q node stream →
    ∃ rest node', sendLoop nSendBufferMaxSize outcome i q node = some (rest, node') ∧ Queued rest node' stream ∧
      node.sent <+: node'.sent := by
  induction q with
  | nil =>
    intro i node h
    exact ⟨[], node, rfl, h, prefix_refl _⟩
  | cons data rest ih =>
    intro i node h
    have hoffset := h.offset data rfl
    have hflat : (data :: rest).flatten.drop node.nSendOffset = data.drop node.nSendOffset ++ rest.flatten := by
      rw [flatten_cons, drop_append_of_le_length hoffset.le]
    unfold sendLoop
    rw [if_neg (not_not.mpr hoffset)]
    by_cases hsocket : (!node.hSocket) = true
    · rw [if_pos hsocket]
      exact ⟨_, _, rfl, h, prefix_refl _⟩
    rw [if_neg hsocket]
    cases outcome i with
    | failed fatal => exact ⟨_, _, rfl, ⟨h.stream, h.size, h.offset, h.start, h.nonempty⟩, prefix_refl _⟩
    | taken n =>
      dsimp only
      generalize hn : min n (data.length - node.nSendOffset) = nBytes
      by_cases hpos : nBytes > 0
      · rw [if_pos hpos]
        by_cases hfull : node.nSendOffset + nBytes = data.length
        · rw [if_pos hfull]
          have hall : (data.drop node.nSendOffset).take nBytes = data.drop node.nSendOffset :=
            take_of_length_le (by rw [length_drop]; omega)
          have hrest : ∀ d ∈ rest, d ≠ [] := fun d hd => h.nonempty d (mem_cons_of_mem data hd)
          have hqueued : Queued rest { node with
              sent := node.sent ++ (data.drop node.nSendOffset).take nBytes
              nSendOffset := 0
              nSendSize := node.nSendSize - data.length
              fPauseSend := decide (node.nSendSize - data.length > nSendBufferMaxSize) } stream := by
            refine ⟨?_, ?_, Queued.head_pos hrest, fun _ => rfl, hrest⟩
            · dsimp only
              rw [← h.stream, hflat, hall, drop_zero, append_assoc]
            · dsimp only
              rw [h.size, flatten_cons, length_append, Nat.add_sub_cancel_left]
          obtain ⟨rest', node', hloop, hqueued', hsent⟩ := ih (i + 1) hqueued
          exact ⟨rest', node', hloop, hqueued', (prefix_append _ _).trans hsent⟩
        · rw [if_neg hfull]
          refine ⟨_, _, rfl, ⟨?_, h.size, ?_, (fun hnil => nomatch hnil), h.nonempty⟩, prefix_append _ _⟩
          · dsimp only
            rw [← h.stream, ← drop_drop, hflat, drop_append_of_le_length (by rw [length_drop]; omega),
              append_assoc, ← append_assoc (List.take _ _), take_append_drop]
          · intro d hd
            obtain rfl := Option.some.inj hd
            dsimp only
            omega
      · rw [if_neg hpos]
        exact ⟨_, _, rfl, h, prefix_refl _⟩

variable (nSendBufferMaxSize) in
lemma socketSendData_queued (outcome : ℕ → SendOutcome) (h : Queued node.vSendMsg node stream) :
    ∃ node', node.socketSendData nSendBufferMaxSize outcome = some node' ∧ Queued node'.vSendMsg node' stream ∧
      node.sent <+: node'.sent := by
  obtain ⟨rest, node', hloop, hqueued, hsent⟩ := sendLoop_queued nSendBufferMaxSize outcome node.vSendMsg 0 h
  have hend : ¬(rest.isEmpty = true ∧ ¬(node'.nSendOffset = 0 ∧ node'.nSendSize = 0)) := by
    rintro ⟨hempty, hnot⟩
    obtain rfl := isEmpty_iff.mp hempty
    exact hnot ⟨hqueued.start rfl, hqueued.size⟩
  refine ⟨{ node' with vSendMsg := rest }, ?_, ⟨hqueued.stream, hqueued.size, hqueued.offset, hqueued.start, hqueued.nonempty⟩,
    hsent⟩
  unfold socketSendData
  rw [hloop]
  dsimp only
  rw [if_neg hend]

def pushedFrame (hash : Bytes → Uint256) (pchMessageStart : BaseBlob 4) (m : Bytes × Bytes) : Bytes :=
  (pushedHeader hash pchMessageStart m.1 m.2).serialize ++ m.2

variable (hash pchMessageStart nSendBufferMaxSize) in
lemma pushMessage_queued (outcome : ℕ → SendOutcome) (command data : Bytes) (h : Queued node.vSendMsg node stream) :
    ∃ node', node.pushMessage nSendBufferMaxSize hash pchMessageStart outcome command data = some node' ∧
      Queued node'.vSendMsg node' (stream ++ pushedFrame hash pchMessageStart (command, data)) ∧
      node.sent <+: node'.sent := by
  have hlength := length_serialize (pushedHeader hash pchMessageStart command data)
  have hflat : (node.vSendMsg ++ [(pushedHeader hash pchMessageStart command data).serialize] ++
      (if data.length = 0 then [] else [data])).flatten =
      node.vSendMsg.flatten ++ pushedFrame hash pchMessageStart (command, data) := by
    unfold pushedFrame
    by_cases hdata : data.length = 0
    · rw [if_pos hdata, eq_nil_of_length_eq_zero hdata]
      simp
    · rw [if_neg hdata]
      simp
  have hqueued : Queued (node.vSendMsg ++ [(pushedHeader hash pchMessageStart command data).serialize] ++
      (if data.length = 0 then [] else [data]))
      { node with
        nSendSize := node.nSendSize + (data.length + HEADER_SIZE)
        fPauseSend := if node.nSendSize + (data.length + HEADER_SIZE) > nSendBufferMaxSize then true else node.fPauseSend
        vSendMsg := node.vSendMsg ++ [(pushedHeader hash pchMessageStart command data).serialize] ++
          (if data.length = 0 then [] else [data]) }
      (stream ++ pushedFrame hash pchMessageStart (command, data)) := by
    refine ⟨?_, ?_, ?_, ?_, ?_⟩
    · rw [hflat, drop_append_of_le_length h.offset_le, ← append_assoc, h.stream]
    · rw [hflat, length_append, ← h.size, pushedFrame, length_append, hlength]
      exact congrArg (node.nSendSize + ·) (Nat.add_comm data.length 24)
    · cases hvSendMsg : node.vSendMsg with
      | nil =>
        intro d hd
        simp only [nil_append, cons_append, head?_cons, Option.mem_some_iff] at hd
        rw [← hd, hlength]
        change node.nSendOffset < 24
        rw [h.start hvSendMsg]
        decide
      | cons first rest =>
        intro d hd
        simp only [cons_append, head?_cons, Option.mem_some_iff] at hd
        apply h.offset d
        rw [hvSendMsg, ← hd]
        rfl
    · intro hnil
      simp at hnil
    · intro d hd
      rw [mem_append, mem_append, mem_singleton] at hd
      obtain (hd | rfl) | hd := hd
      · exact h.nonempty d hd
      · exact length_pos_iff.mp (by rw [hlength]; decide)
      · split_ifs at hd with hdata
        · exact absurd hd not_mem_nil
        · rw [mem_singleton.mp hd]
          exact fun hnil => hdata (congrArg List.length hnil)
  unfold pushMessage
  dsimp only
  by_cases hempty : node.vSendMsg.isEmpty = true
  · rw [if_pos hempty]
    exact socketSendData_queued nSendBufferMaxSize outcome hqueued
  · rw [if_neg hempty]
    exact ⟨_, rfl, hqueued, prefix_refl _⟩

end Sending

/-- The sending and the receiving node with the bytes between them, of which `arrived` have been handed over. -/
structure Transport where
  sender : SendNode
  pushed : List (Bytes × Bytes)
  arrived : ℕ
  receiver : ReceiveNode

/-- The calls on either side. -/
inductive TransportCall
  | pushMessage (command data : Bytes) (outcome : ℕ → SendOutcome)
  | socketSendData (outcome : ℕ → SendOutcome)
  | receive (nBytes : ℕ)

/-- A command and a payload of lengths that fit. -/
structure WellFormedMessage (m : Bytes × Bytes) : Prop where
  length : 1 ≤ m.1.length ∧ m.1.length ≤ 12
  printable : ∀ c ∈ m.1, 0x20 ≤ c.toNat ∧ c.toNat ≤ 0x7e
  size : m.2.length ≤ MAX_PROTOCOL_MESSAGE_LENGTH

def TransportCall.WellFormed : TransportCall → Prop
  | .pushMessage command data _ => WellFormedMessage (command, data)
  | .socketSendData _ => True
  | .receive _ => True

namespace Transport

def init : Transport := ⟨SendNode.init, [], 0, ReceiveNode.init⟩

section Calls

variable (hash : Bytes → Uint256) (pchMessageStart : BaseBlob 4) (nSendBufferMaxSize : ℕ)

/-- A call; `receive` hands over the next bytes that have been sent. There is no result where an assertion fails
or a buffer is overrun. -/
def call (t : Transport) : TransportCall → Option Transport
  | .pushMessage command data outcome =>
    (t.sender.pushMessage nSendBufferMaxSize hash pchMessageStart outcome command data).map fun sender =>
      { t with sender := sender, pushed := t.pushed ++ [(command, data)] }
  | .socketSendData outcome =>
    (t.sender.socketSendData nSendBufferMaxSize outcome).map fun sender => { t with sender := sender }
  | .receive nBytes =>
    let chunk := (t.sender.sent.drop t.arrived).take nBytes
    match t.receiver.receive pchMessageStart chunk with
    | .error _ => none
    | .ok receiver => some { t with arrived := t.arrived + chunk.length, receiver := receiver }

def run : List TransportCall → Transport → Option Transport
  | [], t => some t
  | c :: calls, t => (t.call hash pchMessageStart nSendBufferMaxSize c).bind (run calls)

end Calls

end Transport

section Frames

variable {m : Bytes × Bytes} {msg : CNetMessage}

lemma length_le_max (hm : WellFormedMessage m) : m.2.length < 2 ^ 32 :=
  hm.size.trans_lt (by decide)

lemma wholeFrame_pushed (hm : WellFormedMessage m) : WholeFrame (pushedFrame hash pchMessageStart m) := by
  have hheader : headerOf (pushedFrame hash pchMessageStart m) = SendNode.pushedHeader hash pchMessageStart m.1 m.2 :=
    headerOf_serialize _ _
  have hsize : (SendNode.pushedHeader hash pchMessageStart m.1 m.2).nMessageSize.toNat = m.2.length := by
    change (UInt32.ofNat m.2.length).toNat = m.2.length
    rw [UInt32.toNat_ofNat', Nat.mod_eq_of_lt (length_le_max hm)]
  refine ⟨?_, ?_⟩
  · rw [hheader, hsize]
    exact hm.size
  · rw [hheader, hsize, pushedFrame, length_append, length_serialize]

lemma feed_frames {frames : List Bytes} (h : ∀ raw ∈ frames, WholeFrame raw) :
    feed frameStep [] frames.flatten = (frames, some []) := by
  induction frames with
  | nil => rfl
  | cons raw frames ih =>
    have hwhole := h raw mem_cons_self
    have hne : raw ≠ [] := length_pos_iff.mp (by rw [hwhole.length]; omega)
    have hraw : feed frameStep [] raw = ([raw], some []) := feed_whole hne hwhole
    rw [flatten_cons, feed_append_some hraw, ih (fun r hr => h r (mem_cons_of_mem raw hr))]
    rfl

lemma takeWhile_printable {command : Bytes} (h : ∀ c ∈ command, 0x20 ≤ c.toNat ∧ c.toNat ≤ 0x7e) :
    command.takeWhile (· != 0) = command := by
  apply takeWhile_eq_self_iff.mpr
  intro c hc
  rw [bne_iff_ne]
  rintro rfl
  exact absurd (h 0 hc).1 (by decide)

lemma copyCommand_data (hm : WellFormedMessage m) :
    (CMessageHeader.copyCommand m.1).data = m.1 ++ List.replicate (12 - m.1.length) 0 := by
  change (m.1.takeWhile (· != 0)).take 12 ++ List.replicate (12 - ((m.1.takeWhile (· != 0)).take 12).length) 0 = _
  rw [takeWhile_printable hm.printable, take_of_length_le hm.length.2]

lemma commandValid_append {command : Bytes} (h : ∀ c ∈ command, 0x20 ≤ c.toNat ∧ c.toNat ≤ 0x7e) (k : ℕ) :
    CMessageHeader.commandValid (command ++ List.replicate k 0) = true := by
  induction command with
  | nil =>
    cases k with
    | zero => rfl
    | succ k => simp [replicate_succ, CMessageHeader.commandValid]
  | cons c command ih =>
    obtain ⟨hlow, hhigh⟩ := h c mem_cons_self
    have hzero : c ≠ 0 := by
      rintro rfl
      exact absurd hlow (by decide)
    have hrange : ¬(decide (c < 0x20) || decide (c > 0x7e)) = true := by
      simp only [Bool.or_eq_true, decide_eq_true_eq, UInt8.lt_iff_toNat_lt, gt_iff_lt, not_or, not_lt]
      exact ⟨hlow, hhigh⟩
    rw [cons_append, CMessageHeader.commandValid, if_neg hzero, if_neg hrange]
    exact ih fun c hc => h c (mem_cons_of_mem _ hc)

lemma getCommand_pushed (hm : WellFormedMessage m) :
    (SendNode.pushedHeader hash pchMessageStart m.1 m.2).getCommand = m.1 := by
  change (CMessageHeader.copyCommand m.1).data.takeWhile (· != 0) = m.1
  have hnonzero : ∀ c ∈ m.1, (c != 0) = true := takeWhile_eq_self_iff.mp (takeWhile_printable hm.printable)
  have hzeros : (List.replicate (12 - m.1.length) (0 : UInt8)).takeWhile (· != 0) = [] := by
    cases 12 - m.1.length with
    | zero => rfl
    | succ k => rfl
  rw [copyCommand_data hm, takeWhile_append_of_pos hnonzero, hzeros, append_nil]

lemma isValid_pushed (hm : WellFormedMessage m) :
    (SendNode.pushedHeader hash pchMessageStart m.1 m.2).isValid pchMessageStart = true := by
  have hstart : (SendNode.pushedHeader hash pchMessageStart m.1 m.2).pchMessageStart = pchMessageStart := rfl
  have hcommand : CMessageHeader.commandValid (SendNode.pushedHeader hash pchMessageStart m.1 m.2).pchCommand.data = true := by
    change CMessageHeader.commandValid (CMessageHeader.copyCommand m.1).data = true
    rw [copyCommand_data hm]
    exact commandValid_append hm.printable _
  have hsize : (SendNode.pushedHeader hash pchMessageStart m.1 m.2).nMessageSize.toNat ≤ MAX_SIZE := by
    change (UInt32.ofNat m.2.length).toNat ≤ MAX_SIZE
    rw [UInt32.toNat_ofNat', Nat.mod_eq_of_lt (length_le_max hm)]
    exact hm.size.trans (by decide)
  unfold CMessageHeader.isValid
  rw [if_neg (not_not.mpr hstart), hcommand]
  simpa using hsize

/-- The receiver has the message unchanged. -/
structure Delivered (hash : Bytes → Uint256) (pchMessageStart : BaseBlob 4) (m : Bytes × Bytes) (msg : CNetMessage) : Prop where
  valid : msg.hdr.isValid pchMessageStart = true
  command : msg.hdr.getCommand = m.1
  payload : msg.vRecv = m.2
  checksum : ∃ data_hash msg', msg.getMessageHash hash = some (data_hash, msg') ∧
    data_hash.data.take 4 = msg.hdr.pchChecksum.data

lemma Holds.delivered (hm : WellFormedMessage m) (h : Holds (pushedFrame hash pchMessageStart m) msg) :
    Delivered hash pchMessageStart m msg := by
  have hhdr : msg.hdr = SendNode.pushedHeader hash pchMessageStart m.1 m.2 := h.hdr.trans (headerOf_serialize _ _)
  have hpayload : (pushedFrame hash pchMessageStart m).drop 24 = m.2 := by
    unfold pushedFrame
    rw [← length_serialize (SendNode.pushedHeader hash pchMessageStart m.1 m.2), drop_left]
  refine ⟨?_, ?_, h.vRecv.trans hpayload, ?_⟩
  · rw [hhdr]
    exact isValid_pushed hm
  · rw [hhdr]
    exact getCommand_pushed hm
  · refine ⟨hash m.2, { msg with data_hash := hash m.2 }, ?_, ?_⟩
    · unfold CNetMessage.getMessageHash
      rw [h.complete, h.data_hash, h.hasher, hpayload]
      rfl
    · rw [hhdr]
      rfl

end Frames

namespace Transport

variable {t t' : Transport}

/-- Sender, wire and receiver have the pushed messages between them. -/
structure TransportInv (hash : Bytes → Uint256) (pchMessageStart : BaseBlob 4) (t : Transport) : Prop where
  queued : Queued t.sender.vSendMsg t.sender (t.pushed.map (pushedFrame hash pchMessageStart)).flatten
  wellFormed : ∀ m ∈ t.pushed, WellFormedMessage m
  arrived : t.arrived ≤ t.sender.sent.length
  received : ∃ raws cur, feed frameStep [] (t.sender.sent.take t.arrived) = (raws, some cur) ∧
    NodeState raws (some cur) t.receiver

lemma TransportInv.init : TransportInv hash pchMessageStart Transport.init where
  queued := ⟨rfl, rfl, (fun _ h => nomatch h), fun _ => rfl, fun _ h => absurd h not_mem_nil⟩
  wellFormed _ h := nomatch h
  arrived := le_rfl
  received := ⟨[], [], rfl, NodeState.init⟩

lemma TransportInv.extend (h : TransportInv hash pchMessageStart t) {sender : SendNode} {pushed : List (Bytes × Bytes)}
    (hqueued : Queued sender.vSendMsg sender (pushed.map (pushedFrame hash pchMessageStart)).flatten)
    (hpushed : ∀ m ∈ pushed, WellFormedMessage m) (hsent : t.sender.sent <+: sender.sent) :
    TransportInv hash pchMessageStart { t with sender := sender, pushed := pushed } := by
  refine ⟨hqueued, hpushed, h.arrived.trans hsent.length_le, ?_⟩
  obtain ⟨more, hmore⟩ := hsent
  change ∃ raws cur, feed frameStep [] (sender.sent.take t.arrived) = (raws, some cur) ∧ _
  rw [← hmore, take_append_of_le_length h.arrived]
  exact h.received

lemma TransportInv.feed_sent (h : TransportInv hash pchMessageStart t) (n : ℕ) :
    ∃ raws cur, feed frameStep [] (t.sender.sent.take n) = (raws, some cur) ∧
      raws <+: t.pushed.map (pushedFrame hash pchMessageStart) := by
  have hwhole : ∀ raw ∈ t.pushed.map (pushedFrame hash pchMessageStart), WholeFrame raw := by
    intro raw hraw
    obtain ⟨m, hm, rfl⟩ := mem_map.mp hraw
    exact wholeFrame_pushed (h.wellFormed m hm)
  have hstream := feed_frames hwhole
  rw [← h.queued.stream, ← take_append_drop n t.sender.sent, append_assoc] at hstream
  obtain ⟨raws, cur, hfeed, hraws⟩ := feed_front hstream
  exact ⟨raws, cur, hfeed, hraws⟩

variable (nSendBufferMaxSize) in
lemma TransportInv.call (h : TransportInv hash pchMessageStart t) {c : TransportCall} (hc : c.WellFormed) :
    ∃ t', t.call hash pchMessageStart nSendBufferMaxSize c = some t' ∧ TransportInv hash pchMessageStart t' := by
  cases c with
  | pushMessage command data outcome =>
    obtain ⟨sender, hsender, hqueued, hsent⟩ := pushMessage_queued hash pchMessageStart nSendBufferMaxSize outcome command data h.queued
    refine ⟨{ t with sender := sender, pushed := t.pushed ++ [(command, data)] }, ?_, h.extend ?_ ?_ hsent⟩
    · unfold Transport.call
      dsimp only
      rw [hsender]
      rfl
    · rw [map_append, flatten_append, map_singleton, flatten_singleton]
      exact hqueued
    · intro m hm
      obtain hm | hm := mem_append.mp hm
      · exact h.wellFormed m hm
      · rw [mem_singleton.mp hm]
        exact hc
  | socketSendData outcome =>
    obtain ⟨sender, hsender, hqueued, hsent⟩ := socketSendData_queued nSendBufferMaxSize outcome h.queued
    refine ⟨{ t with sender := sender }, ?_, h.extend hqueued h.wellFormed hsent⟩
    unfold Transport.call
    dsimp only
    rw [hsender]
    rfl
  | receive nBytes =>
    obtain ⟨raws, cur, hfeed, hstate⟩ := h.received
    obtain ⟨receiver, hreceiver, hstate'⟩ := hstate.receive pchMessageStart ((t.sender.sent.drop t.arrived).take nBytes)
    have htaken : t.sender.sent.take (t.arrived + ((t.sender.sent.drop t.arrived).take nBytes).length) =
        t.sender.sent.take t.arrived ++ (t.sender.sent.drop t.arrived).take nBytes := by
      rw [take_add, length_take, ← take_take, take_length]
    refine ⟨{ t with
        arrived := t.arrived + ((t.sender.sent.drop t.arrived).take nBytes).length
        receiver := receiver }, ?_, h.queued, h.wellFormed, ?_, ?_⟩
    · unfold Transport.call
      dsimp only
      rw [hreceiver]
    · dsimp only
      rw [length_take, length_drop]
      have harrived := h.arrived
      omega
    · dsimp only
      obtain ⟨raws', cur', hfeed', -⟩ := h.feed_sent (t.arrived + ((t.sender.sent.drop t.arrived).take nBytes).length)
      rw [htaken, feed_append_some hfeed] at hfeed'
      rw [htaken, feed_append_some hfeed, hfeed']
      obtain ⟨rfl, hcur⟩ := Prod.mk.inj hfeed'
      dsimp only at hstate'
      rw [hcur] at hstate'
      exact ⟨_, cur', rfl, hstate'⟩

lemma TransportInv.run {calls : List TransportCall} (hcalls : ∀ c ∈ calls, c.WellFormed) :
    ∀ {t : Transport}, TransportInv hash pchMessageStart t →
      ∃ t', run hash pchMessageStart nSendBufferMaxSize calls t = some t' ∧ TransportInv hash pchMessageStart t' := by
  induction calls with
  | nil => exact fun h => ⟨_, rfl, h⟩
  | cons c calls ih =>
    intro t h
    obtain ⟨t₁, ht₁, h₁⟩ := h.call nSendBufferMaxSize (hcalls c mem_cons_self)
    obtain ⟨t', ht', h'⟩ := ih (fun c hc => hcalls c (mem_cons_of_mem _ hc)) h₁
    refine ⟨t', ?_, h'⟩
    unfold Transport.run
    rw [ht₁]
    exact ht'

lemma TransportInv.delivered (h : TransportInv hash pchMessageStart t) :
    ∃ l, l <+: t.pushed ∧ List.Forall₂ (Delivered hash pchMessageStart) l t.receiver.vProcessMsg := by
  obtain ⟨raws, cur, hfeed, hstate⟩ := h.received
  obtain ⟨raws', cur', hfeed', hraws⟩ := h.feed_sent t.arrived
  obtain ⟨rfl, -⟩ := Prod.mk.inj (hfeed.symm.trans hfeed')
  have hl : raws = (t.pushed.take raws.length).map (pushedFrame hash pchMessageStart) := by
    rw [map_take]
    exact prefix_iff_eq_take.mp hraws
  refine ⟨t.pushed.take raws.length, List.take_prefix _ _, ?_⟩
  cases hstate with
  | «open» _ hprocess _ =>
    rw [hl, forall₂_map_left_iff] at hprocess
    have hwell : ∀ m ∈ t.pushed.take raws.length, WellFormedMessage m :=
      fun m hm => h.wellFormed m (mem_of_mem_take hm)
    exact ((forall₂_and_left _ _).mpr ⟨hwell, hprocess⟩).imp fun m msg hboth => hboth.2.delivered hboth.1

end Transport

section Streams

variable {raw : Bytes} {msg msg' : CNetMessage}

lemma Holds.unique (h : Holds raw msg) (h' : Holds raw msg') : msg = msg' := by
  have hpos : msg.nDataPos = msg'.nDataPos := by
    have hlen := h.nDataPos
    have hlen' := h'.nDataPos
    omega
  exact CNetMessage.ext (h.hasher.trans h'.hasher.symm) (h.data_hash.trans h'.data_hash.symm)
    (h.in_data.trans h'.in_data.symm) (h.hdrbuf.trans h'.hdrbuf.symm) (h.hdr.trans h'.hdr.symm)
    (h.nHdrPos.trans h'.nHdrPos.symm) (h.vRecv.trans h'.vRecv.symm) hpos

lemma NodeState.unique {raws : List Bytes} {state : Option Bytes} {node node' : ReceiveNode}
    (h : NodeState raws state node) (h' : NodeState raws state node') :
    node.vProcessMsg = node'.vProcessMsg ∧ node.hSocket = node'.hSocket := by
  have hqueue : ∀ {l l' : List CNetMessage}, List.Forall₂ Holds raws l → List.Forall₂ Holds raws l' → l = l' :=
    fun hl hl' => right_unique_forall₂' (fun _ _ _ h₁ h₂ => h₁.unique h₂) hl hl'
  cases h with
  | «open» hsocket hprocess =>
    cases h' with
    | «open» hsocket' hprocess' => exact ⟨hqueue hprocess hprocess', hsocket.trans hsocket'.symm⟩
  | closed hsocket hprocess =>
    cases h' with
    | closed hsocket' hprocess' => exact ⟨hqueue hprocess hprocess', hsocket.trans hsocket'.symm⟩

end Streams

/-- What is pushed is delivered in order and unchanged. What a stream leads to, and where it is refused, does not
depend on how it is cut into chunks. -/
theorem messages_transported (hash : Bytes → Uint256) (pchMessageStart : BaseBlob 4) (nSendBufferMaxSize : ℕ) :
    (∀ calls : List TransportCall, (∀ c ∈ calls, c.WellFormed) →
      ∃ t, Transport.init.run hash pchMessageStart nSendBufferMaxSize calls = some t ∧
        ∃ l, l <+: t.pushed ∧ List.Forall₂ (Delivered hash pchMessageStart) l t.receiver.vProcessMsg) ∧
    ∀ chunks chunks' : List Bytes, chunks.flatten = chunks'.flatten →
      ∃ node node', ReceiveNode.init.receiveAll pchMessageStart chunks = .ok node ∧
        ReceiveNode.init.receiveAll pchMessageStart chunks' = .ok node' ∧
        node.vProcessMsg = node'.vProcessMsg ∧ node.hSocket = node'.hSocket := by
  constructor
  · intro calls hcalls
    obtain ⟨t, ht, hinv⟩ := Transport.TransportInv.run hcalls Transport.TransportInv.init
    exact ⟨t, ht, hinv.delivered⟩
  · intro chunks chunks' heq
    obtain ⟨node, hnode, hstate⟩ := NodeState.init.receiveAll pchMessageStart chunks
    obtain ⟨node', hnode', hstate'⟩ := NodeState.init.receiveAll pchMessageStart chunks'
    rw [← heq] at hstate'
    exact ⟨node, node', hnode, hnode', hstate.unique hstate'⟩

def pingCalls : List TransportCall :=
  [.pushMessage [0x70, 0x69, 0x6e, 0x67] [1, 2, 3] (fun _ => .taken 10), .receive 5, .socketSendData (fun _ => .taken 100),
    .receive 20, .receive 100]

theorem messages_transported_ping :
    (∃ t, Transport.init.run (hash256 cSHA256) (BaseBlob.null 4) 1000 pingCalls = some t ∧
      ∃ l, l <+: t.pushed ∧ List.Forall₂ (Delivered (hash256 cSHA256) (BaseBlob.null 4)) l t.receiver.vProcessMsg) ∧
    ∃ node node', ReceiveNode.init.receiveAll (BaseBlob.null 4) [[1], [2, 3]] = .ok node ∧
      ReceiveNode.init.receiveAll (BaseBlob.null 4) [[1, 2, 3]] = .ok node' ∧
      node.vProcessMsg = node'.vProcessMsg ∧ node.hSocket = node'.hSocket := by
  have hping : ∀ c ∈ pingCalls, c.WellFormed := by
    intro c hc
    simp only [pingCalls, mem_cons, not_mem_nil, or_false] at hc
    obtain rfl | rfl | rfl | rfl | rfl := hc
    · refine ⟨by decide, fun c hc => ?_, by decide⟩
      have hall : ([0x70, 0x69, 0x6e, 0x67] : Bytes).all (fun c => 0x20 ≤ c.toNat ∧ c.toNat ≤ 0x7e) := by decide
      exact of_decide_eq_true (all_eq_true.mp hall c hc)
    all_goals exact trivial
  exact ⟨(messages_transported (hash256 cSHA256) (BaseBlob.null 4) 1000).1 pingCalls hping,
    (messages_transported (hash256 cSHA256) (BaseBlob.null 4) 1000).2 [[1], [2, 3]] [[1, 2, 3]] rfl⟩

end MutableBitcoin
